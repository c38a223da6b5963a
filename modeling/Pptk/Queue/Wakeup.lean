import Pptk.Queue.Fifo

/-!
# Waiting threads of the bounded queue

The threads of the queue with the condition on which each of them waits, and whether it has been
signalled since it began to wait. As before, a step is what a thread does from taking the lock to
giving it back, so the lock is free in all states. A thread that waits may take the lock at any
time: it has been signalled, its wait has timed out, or the wakeup is spurious.

Main result: `no_lost_wakeup`.
-/

namespace Pptk.Queue

open Lib Function List Option

variable {α : Type*}

/-! ## Broadcasts -/

/-- The conditions `queue->empty` and `queue->full`. -/
inductive QueueCond
  | empty
  | full
  deriving DecidableEq

/-- A thread waits on a condition; `signalled` says whether there was a broadcast since. -/
structure QueueWait where
  cond : QueueCond
  signalled : Bool
  deriving DecidableEq

/-- The thread is woken if its condition is signalled. -/
def QueueWait.broadcast (w : QueueWait) (conds : List QueueCond) : QueueWait :=
  { w with signalled := w.signalled || decide (w.cond ∈ conds) }

/-- The broadcasts of `queue_enq_one` (queue.c:73-85) if it does not wait. -/
def enqOneSignals (q : RingBuf α) : List QueueCond :=
  if queueIsFull q then [] else if queueIsEmpty q then [.empty] else []

/-- The broadcasts of `queue_enq_many` (queue.c:145-157) up to the end of the call or the next wait.
-/
def enqManySignals (q : RingBuf α) : List α → List QueueCond
  | [] => []
  | item :: rest =>
    if queueIsFull q then [] else (if queueIsEmpty q then [.empty] else []) ++ enqManySignals
      (q.push item) rest

/-- The broadcasts of `queue_deq_one`, `queue_deq_many` and `queue_timeddeq_many` (queue.c:107-120,
180-196, 226-242) if they do not wait. -/
def deqSignals (q : RingBuf α) : List QueueCond :=
  if queueIsEmpty q then [] else if queueIsFull q then [.full] else []

/-- The condition on which a thread waits that gives the lock back in this call. -/
def QueueCall.waitCond {κ : Type*} : QueueCall κ α → Option QueueCond
  | .idle => none
  | .enqOne _ => some .full
  | .enqMany _ _ => some .full
  | .flush _ _ _ => some .full
  | .deqOne => some .empty
  | .deqMany _ => some .empty
  | .timeddeqMany _ _ => some .empty

section Step

variable {τ κ : Type*} [DecidableEq τ] [DecidableEq κ] (null : α) (owner : κ → τ)

namespace QueueState

/-- The broadcasts of a thread that takes the lock. -/
def signals (s : QueueState τ κ α) (t : τ) : List QueueCond :=
  match s.call t with
  | .idle => []
  | .enqOne _ => enqOneSignals s.queue
  | .enqMany items i => enqManySignals s.queue (items.drop i)
  | .flush c i _ => enqManySignals s.queue ((s.cache c).items.drop i)
  | .deqOne => deqSignals s.queue
  | .deqMany _ => deqSignals s.queue
  | .timeddeqMany _ _ => deqSignals s.queue

end QueueState

/-- The queue and its threads, and on what each thread waits. -/
structure WaitState (τ κ α : Type*) where
  base : QueueState τ κ α
  wait : τ → Option QueueWait

/-- A step, with the waits: a thread that takes the lock wakes those that wait on the conditions
that it signals, and may wait afterwards. -/
def WaitState.step (s : WaitState τ κ α) (a : QueueAction τ κ α) : Option (WaitState τ κ α) :=
  (s.base.step null owner a).map fun base =>
    match a with
    | .lock t =>
      ⟨base, update (fun t' => (s.wait t').map fun w => w.broadcast (s.base.signals t)) t
        ((base.call t).waitCond.map fun cond => ⟨cond, false⟩)⟩
    | .timeout t => ⟨base, update s.wait t none⟩
    | _ => ⟨base, s.wait⟩

/-- Nobody waits at first. -/
def waitInit (bufsiz : ℕ) (hbufsiz : 0 < bufsiz) (capacity : κ → ℕ) : WaitState τ κ α :=
  ⟨queueInit null bufsiz hbufsiz capacity, fun _ => none⟩

end Step

/-! ## Reasons to wait -/

/-- The test in the loop around the wait. -/
def Reason (q : RingBuf α) : QueueCond → Prop
  | .empty => queueIsEmpty q = true
  | .full => queueIsFull q = true

/-- From `q` to `q'` a reason to wait goes away only if the condition is signalled. -/
def Signals (q q' : RingBuf α) (conds : List QueueCond) :
    Prop := ∀ cond, Reason q cond → cond ∉ conds → Reason q' cond

theorem signals_self (q : RingBuf α) (conds : List QueueCond) : Signals q q conds := fun _ h _ => h

variable {q : RingBuf α}

theorem signals_of_not {conds : List QueueCond}
    (hempty : queueIsEmpty q = true → QueueCond.empty ∈ conds)
    (hfull : queueIsFull q = true → QueueCond.full ∈ conds) (q' : RingBuf α) :
    Signals q q' conds := by
  intro cond hreason hnot
  cases cond with
  | empty => exact absurd (hempty hreason) hnot
  | full => exact absurd (hfull hreason) hnot

theorem queueEnqMany_signals (q : RingBuf α) (items : List α) :
    Signals q (queueEnqMany q items).1 (enqManySignals q items) := by
  cases items with
  | nil => exact signals_self q []
  | cons item rest =>
    unfold queueEnqMany enqManySignals
    by_cases hfull : queueIsFull q = true
    · rw [if_pos hfull, if_pos hfull]
      exact signals_self q []
    · rw [if_neg hfull, if_neg hfull]
      apply signals_of_not
      · intro hempty
        rw [if_pos hempty]
        exact mem_append_left _ mem_cons_self
      · exact fun h => absurd h hfull

/-- A batch is interrupted because the queue is full. -/
theorem queueEnqMany_full {items : List α} (h : (queueEnqMany q items).2 < items.length) :
    queueIsFull (queueEnqMany q items).1 = true := by
  induction items generalizing q with
  | nil => exact absurd h (Nat.not_lt_zero _)
  | cons item rest ih =>
    unfold queueEnqMany at h ⊢
    by_cases hfull : queueIsFull q = true
    · rw [if_pos hfull]
      exact hfull
    · rw [if_neg hfull] at h ⊢
      exact ih (Nat.lt_of_succ_lt_succ h)

theorem deq_signals (hempty : ¬queueIsEmpty q = true) (q' : RingBuf α) :
    Signals q q' (deqSignals q) := by
  unfold deqSignals
  rw [if_neg hempty]
  apply signals_of_not
  · exact fun h => absurd h hempty
  · intro hfull
    rw [if_pos hfull]
    exact mem_cons_self

section Lock

variable {τ κ : Type*}

/-- A critical section signals what it changes, and a thread that waits after it has a reason. -/
def LockOk (s : QueueState τ κ α) (t : τ) (s' : QueueState τ κ α) : Prop :=
  Signals s.queue s'.queue (s.signals t) ∧ ∀ cond, (s'.call t).waitCond = some cond →
    Reason s'.queue cond

variable {s s' : QueueState τ κ α} {t : τ}

theorem lockOk_of_idle (hsignals : Signals s.queue s'.queue (s.signals t))
    (hidle : s'.call t = .idle) : LockOk s t s' := by
  refine ⟨hsignals, fun cond hcond => ?_⟩
  rw [hidle] at hcond
  exact nomatch hcond

theorem lockOk_of_wait {cond : QueueCond} (hsignals : Signals s.queue s'.queue (s.signals t))
    (hwait : (s'.call t).waitCond = some cond) (hreason : Reason s'.queue cond) :
    LockOk s t s' := by
  refine ⟨hsignals, fun cond' hcond' => ?_⟩
  rwa [← some.inj (hwait.symm.trans hcond')]

theorem lockOk_enqMany {items : List α} (hsignals : s.signals t = enqManySignals s.queue items)
    (hqueue : s'.queue = (queueEnqMany s.queue items).1)
    (hcall : s'.call t = .idle ∨ (s'.call t).waitCond = some .full ∧
      (queueEnqMany s.queue items).2 < items.length) : LockOk s t s' := by
  have h : Signals s.queue s'.queue (s.signals t) := by
    rw [hsignals, hqueue]
    exact queueEnqMany_signals s.queue items
  rcases hcall with hidle | ⟨hwait, hlt⟩
  · exact lockOk_of_idle h hidle
  · refine lockOk_of_wait h hwait ?_
    rw [hqueue]
    exact queueEnqMany_full hlt

theorem lockOk_empty (hempty : queueIsEmpty s.queue = true) (hqueue : s'.queue = s.queue)
    (hwait : (s'.call t).waitCond = some .empty) : LockOk s t s' := by
  refine lockOk_of_wait ?_ hwait ?_
  · rw [hqueue]
    exact signals_self _ _
  · rw [hqueue]
    exact hempty

variable [DecidableEq τ] {null : α}

theorem lockOk_dequeue (hsignals : s.signals t = deqSignals s.queue)
    (hempty : ¬queueIsEmpty s.queue = true) (r : List α × RingBuf α) :
    LockOk s t (s.dequeue t r) := by
  refine lockOk_of_idle ?_ (setCall_call_self _ t .idle)
  rw [hsignals]
  exact deq_signals hempty _

/-- A critical section signals what it changes, and a thread that waits after it has a reason. -/
theorem lockOk_lock [DecidableEq κ] (h : s.lock null t = some s') : LockOk s t s' := by
  unfold QueueState.lock at h
  cases hk : s.call t with
  | idle => simp [hk] at h
  | enqOne item =>
    have hsignals : s.signals t = enqOneSignals s.queue := by rw [QueueState.signals, hk]
    rw [hk] at h
    dsimp only at h
    unfold queueEnqOne at h
    by_cases hfull : queueIsFull s.queue = true
    · rw [if_pos hfull] at h
      rw [← some.inj h]
      exact lockOk_of_wait (signals_self _ _) (by rw [hk]; rfl : (s.call t).waitCond = some .full)
        hfull
    · rw [if_neg hfull] at h
      rw [← some.inj h]
      refine lockOk_of_idle ?_ (setCall_call_self _ t .idle)
      rw [hsignals, enqOneSignals, if_neg hfull]
      refine signals_of_not (fun hempty => ?_) (fun h => absurd h hfull) _
      rw [if_pos hempty]
      exact mem_cons_self
  | enqMany items i =>
    have hsignals : s.signals t = enqManySignals s.queue (items.drop i) := by
      rw [QueueState.signals, hk]
    rw [hk] at h
    dsimp only at h
    split_ifs at h with hlt
    · rw [← some.inj h]
      refine lockOk_enqMany hsignals rfl (.inr ⟨?_, ?_⟩)
      · rw [setCall_call_self]
        rfl
      · rw [length_drop]
        omega
    · rw [← some.inj h]
      exact lockOk_enqMany hsignals rfl (.inl (setCall_call_self _ _ _))
  | flush c i item =>
    have hsignals : s.signals t = enqManySignals s.queue ((s.cache c).items.drop i) := by
      rw [QueueState.signals, hk]
    rw [hk] at h
    dsimp only at h
    split_ifs at h with hlt
    · rw [← some.inj h]
      refine lockOk_enqMany hsignals rfl (.inr ⟨?_, ?_⟩)
      · rw [setCall_call_self]
        rfl
      · rw [length_drop]
        omega
    · rw [← some.inj h]
      exact lockOk_enqMany hsignals rfl (.inl (setCall_call_self _ _ _))
  | deqOne =>
    have hsignals : s.signals t = deqSignals s.queue := by rw [QueueState.signals, hk]
    rw [hk] at h
    dsimp only at h
    unfold queueDeqOne at h
    split_ifs at h with hempty
    · rw [← some.inj h]
      exact lockOk_empty hempty rfl (by rw [hk]; rfl)
    · rw [← some.inj h]
      exact lockOk_dequeue hsignals hempty _
  | deqMany sz =>
    have hsignals : s.signals t = deqSignals s.queue := by rw [QueueState.signals, hk]
    rw [hk] at h
    dsimp only at h
    unfold queueDeqMany at h
    split_ifs at h with hempty
    · rw [← some.inj h]
      exact lockOk_empty hempty rfl (by rw [hk]; rfl)
    · rw [← some.inj h]
      exact lockOk_dequeue hsignals hempty _
  | timeddeqMany sz waited =>
    have hsignals : s.signals t = deqSignals s.queue := by rw [QueueState.signals, hk]
    rw [hk] at h
    dsimp only at h
    unfold queueTimeddeqMany queueDeqMany at h
    split_ifs at h with hempty
    · rw [← some.inj h]
      exact lockOk_empty hempty rfl (by rw [setCall_call_self]; rfl)
    · rw [← some.inj h]
      exact lockOk_dequeue hsignals hempty _

end Lock

/-! ## Whole runs -/

section Runs

variable {τ κ : Type*} [DecidableEq τ] [DecidableEq κ] {null : α} {owner : κ → τ}

/-- A thread that has not been signalled since it began to wait has a reason to wait. -/
def WaitInv (s : WaitState τ κ α) :
    Prop := ∀ t w, s.wait t = some w → w.signalled = false → Reason s.base.queue w.cond

theorem step_queue {s s' : QueueState τ κ α} {a : QueueAction τ κ α}
    (h : s.step null owner a = some s') (hlock : ∀ t, a ≠ .lock t) : s'.queue = s.queue := by
  cases a with
  | enqOne t item | enqMany t items | deqOne t | deqMany t sz | timeddeqMany t sz =>
    obtain ⟨-, rfl⟩ := QueueInv.begin_eq_some h
    rfl
  | cacheEnqOne t c item =>
    obtain ⟨-, rfl⟩ := QueueInv.begin_eq_some (ite_none_right_eq_some.mp h).2
    unfold QueueState.cacheEnqOne
    split_ifs <;> rfl
  | cacheFlush t c =>
    obtain ⟨-, rfl⟩ := QueueInv.begin_eq_some (ite_none_right_eq_some.mp h).2
    rfl
  | lock t => exact absurd rfl (hlock t)
  | timeout t =>
    unfold QueueState.step QueueState.timeout at h
    dsimp only at h
    split at h
    · rw [← some.inj h]
      rfl
    · exact nomatch h

/-- Who has not been signalled waits for a reason. -/
theorem WaitInv.step {s s' : WaitState τ κ α} {a : QueueAction τ κ α} (h : WaitInv s)
    (hs : s.step null owner a = some s') : WaitInv s' := by
  obtain ⟨base, hbase, rfl⟩ := map_eq_some_iff.mp hs
  cases a with
  | lock t =>
    obtain ⟨hsignals, hwait⟩ := lockOk_lock hbase
    intro t' w hw hnot
    replace hw : update (fun t' => (s.wait t').map fun w => w.broadcast (s.base.signals t))
      t
        ((base.call t).waitCond.map fun cond => ⟨cond, false⟩) t' = some w := hw
    by_cases ht : t' = t
    · rw [ht, update_self] at hw
      obtain ⟨cond, hcond, rfl⟩ := map_eq_some_iff.mp hw
      exact hwait cond hcond
    · rw [update_of_ne ht] at hw
      obtain ⟨w', hw', rfl⟩ := map_eq_some_iff.mp hw
      obtain ⟨hnot', hcond⟩ := Bool.or_eq_false_iff.mp hnot
      exact hsignals w'.cond (h t' w' hw' hnot') (of_decide_eq_false hcond)
  | timeout t =>
    intro t' w hw hnot
    replace hw : update s.wait t none t' = some w := hw
    rw [update_apply] at hw
    split_ifs at hw
    show Reason base.queue w.cond
    rw [step_queue hbase fun t h => nomatch h]
    exact h t' w hw hnot
  | _ =>
    intro t' w hw hnot
    show Reason base.queue w.cond
    rw [step_queue hbase fun t h => nomatch h]
    exact h t' w hw hnot

/-- The queue does the same with and without the waits. -/
theorem run_base {s s' : WaitState τ κ α} {as : List (QueueAction τ κ α)}
    (h : run (WaitState.step null owner) s as = some s') :
    run (QueueState.step null owner) s.base as = some s'.base := by
  induction as generalizing s with
  | nil =>
    rw [← some.inj h]
    rfl
  | cons a as ih =>
    obtain ⟨s1, hs1, h⟩ := bind_eq_some_iff.mp h
    obtain ⟨base, hbase, hs1⟩ := map_eq_some_iff.mp hs1
    have heq : s1.base = base := by
      rw [← hs1]
      cases a <;> rfl
    rw [run, hbase, ← heq]
    exact ih h

/-- In every state in which the lock is free, a thread that waits on `empty` and has not been
signalled finds no item in the queue, and one that waits on `full` finds no free slot. -/
theorem no_lost_wakeup (null : α) (owner : κ → τ) (bufsiz : ℕ) (hbufsiz : 0 < bufsiz)
    (capacity : κ → ℕ) (as : List (QueueAction τ κ α)) (s : WaitState τ κ α)
    (hrun : run (WaitState.step null owner) (waitInit null bufsiz hbufsiz capacity) as = some s) :
    ∀ t, (s.wait t = some ⟨.empty, false⟩ → s.base.queue.contents = []) ∧
      (s.wait t = some ⟨.full, false⟩ → s.base.queue.contents.length + 1 = bufsiz) := by
  have hinv : WaitInv s := run_invariant (fun s a s' h hs => WaitInv.step h hs) hrun fun t w hw _ =>
    nomatch hw
  have hbase : QueueInv owner bufsiz s.base :=
    run_invariant (fun _ _ _ h hstep => h.step null hstep) (run_base hrun)
      (QueueInv.init null hbufsiz capacity)
  intro t
  constructor
  · intro hw
    exact s.base.queue.isEmpty_iff.mp (hinv t _ hw rfl)
  · intro hw
    rw [← hbase.cap, RingBuf.length_contents]
    exact s.base.queue.isFull_iff.mp (hinv t _ hw rfl)

/-- A consumer that waits for an item: it is not signalled before a producer puts one in the queue.
-/
theorem no_lost_wakeup_consumer : 0 < 3 ∧ ∃ s : WaitState Bool Unit ℕ,
    run (WaitState.step 0 fun _ => false) (waitInit 0 3 (by decide) fun _ => 1)
      [.enqOne false 5, .deqOne true, .lock true] = some s ∧
      s.wait true = some ⟨.empty, false⟩ ∧ s.base.queue.contents = [] := by
  refine ⟨by decide, _, rfl, rfl, ?_⟩
  exact (no_lost_wakeup 0 (fun _ => false) 3 (by decide) (fun _ => 1)
    [.enqOne false 5, .deqOne true, .lock true] _ rfl true).1 rfl

end Runs

end Pptk.Queue
