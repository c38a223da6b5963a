import Pptk.Queue.Queue

/-!
# The bounded queue is a FIFO

Every step of a thread keeps the relation between the items that have been handed over, put in the
queue and taken out of it.

Main result: `queue_fifo`.
-/

namespace Pptk.Queue

open Lib Function List

variable {α τ κ : Type*} [DecidableEq τ] [DecidableEq κ] {owner : κ → τ} {bufsiz : ℕ}
  {s s' : QueueState τ κ α} {t : τ}

/-! ## Changes of the state -/

section Pending

theorem pendingOf_setCall_inl (s : QueueState τ κ α) (t t' : τ) (k : QueueCall κ α) :
    (s.setCall t k).pendingOf owner (.inl t') = if t' = t then k.pending
      else s.pendingOf owner (.inl t') := by
  unfold QueueState.pendingOf QueueState.setCall
  dsimp only
  rw [update_apply]
  split_ifs <;> rfl

theorem pendingOf_setCall_inr (s : QueueState τ κ α) (t : τ) (c : κ) (k : QueueCall κ α) :
    (s.setCall t k).pendingOf owner (.inr c) =
      if owner c = t then k.left c (s.cache c).items else s.pendingOf owner (.inr c) := by
  unfold QueueState.pendingOf QueueState.setCall
  dsimp only
  rw [update_apply]
  split_ifs <;> rfl

theorem pendingOf_setCall_of_same {k : QueueCall κ α} (h : k.Same (s.call t)) (p : Producer τ κ) :
    (s.setCall t k).pendingOf owner p = s.pendingOf owner p := by
  cases p with
  | inl t' =>
    rw [pendingOf_setCall_inl]
    split_ifs with ht
    · rw [h.1, ht]
      rfl
    · rfl
  | inr c =>
    rw [pendingOf_setCall_inr]
    split_ifs with ht
    · rw [h.2, ← ht]
      rfl
    · rfl

end Pending

variable {k : QueueCall κ α}

omit [DecidableEq κ] in
theorem owned_setCall (h : ∀ t c i item, s.call t = .flush c i item → owner c = t)
    (hk : ∀ c i item, k = .flush c i item → owner c = t) :
    ∀ t' c i item, (s.setCall t k).call t' = .flush c i item → owner c = t' := by
  intro t' c i item hcall
  unfold QueueState.setCall at hcall
  dsimp only at hcall
  rw [update_apply] at hcall
  split_ifs at hcall with ht
  · rw [ht]
    exact hk c i item hcall
  · exact h t' c i item hcall

/-- Calls that are no flushes. -/
def QueueCall.NoFlush : QueueCall κ α → Prop
  | .flush _ _ _ => False
  | _ => True

theorem QueueCall.NoFlush.left (h : k.NoFlush) (c : κ) (items : List α) :
    k.left c items = items := by
  cases k with
  | flush => exact h.elim
  | _ => rfl

omit [DecidableEq κ] in
theorem QueueCall.NoFlush.ne (h : k.NoFlush) {c : κ} {i : ℕ} {item : Option α} :
    k ≠ .flush c i item := by
  rintro rfl
  exact h

theorem QueueCall.NoFlush.same {k' : QueueCall κ α} (h : k.NoFlush) (h' : k'.NoFlush)
    (hpending : k.pending = k'.pending) : k.Same k' :=
  ⟨hpending, fun c items => by rw [h.left, h'.left]⟩

namespace QueueInv

variable {k : QueueCall κ α} {c : κ}

/-- A thread gets on in its call, with the same items to hand over. -/
theorem setCall (h : QueueInv owner bufsiz s) (hsame : k.Same (s.call t))
    (hk : ∀ c i item, k = .flush c i item → owner c = t) :
    QueueInv owner bufsiz (s.setCall t k) where
  fifo := h.fifo
  producer p := by
    rw [pendingOf_setCall_of_same hsame]
    exact h.producer p
  owned := owned_setCall h.owned hk
  cap := h.cap

theorem submit (h : QueueInv owner bufsiz s) (hidle : s.call t = .idle) (hk : k.NoFlush) :
    QueueInv owner bufsiz ((s.submit (.inl t) k.pending).setCall t k) where
  fifo := h.fifo
  producer p := by
    have hp := h.producer p
    cases p with
    | inl t' =>
      rw [pendingOf_setCall_inl]
      simp only [QueueState.setCall, QueueState.submit, update_apply, Sum.inl.injEq]
      split_ifs with ht
      · subst ht
        have hnil : s.pendingOf owner (.inl t') = [] := by
          rw [QueueState.pendingOf, hidle]
          rfl
        rw [hp, hnil, append_nil]
      · exact hp
    | inr c =>
      rw [pendingOf_setCall_inr]
      simp only [QueueState.setCall, QueueState.submit, update_apply, reduceCtorEq, if_false]
      split_ifs with ht
      · rw [hp, hk.left, QueueState.pendingOf, ht, hidle]
        rfl
      · exact hp
  owned := owned_setCall h.owned fun _ _ _ heq => absurd heq hk.ne
  cap := h.cap

/-- Items of a thread are put in the queue. -/
theorem insert (h : QueueInv owner bufsiz s) {items : List α} {q : RingBuf α}
    (hcall : (s.call t).NoFlush) (hk : k.NoFlush)
    (hpending : (s.call t).pending = items ++ k.pending)
    (hq : q.contents = s.queue.contents ++ items ∧ q.cap = s.queue.cap) :
    QueueInv owner bufsiz ((s.insert (.inl t) items q).setCall t k) where
  fifo := by
    simp only [QueueState.setCall, QueueState.insert, map_append, map_map, comp_def, map_id', hq.1]
    rw [h.fifo, append_assoc]
  producer p := by
    have hp := h.producer p
    cases p with
    | inl t' =>
      rw [pendingOf_setCall_inl]
      simp only [QueueState.setCall, QueueState.insert]
      split_ifs with ht
      · subst ht
        rw [ofProducer_append_self, hp, QueueState.pendingOf, hpending, append_assoc]
      · rw [ofProducer_append_of_ne (by simpa using Ne.symm ht)]
        exact hp
    | inr c =>
      rw [pendingOf_setCall_inr]
      simp only [QueueState.setCall, QueueState.insert]
      rw [ofProducer_append_of_ne (by simp), hp]
      split_ifs with ht
      · rw [hk.left, QueueState.pendingOf, ht, hcall.left]
      · rfl
  owned := owned_setCall h.owned fun _ _ _ heq => absurd heq hk.ne
  cap := hq.2.trans h.cap

/-- Items of a cache are put in the queue. -/
theorem insert_cached (h : QueueInv owner bufsiz s) {i n : ℕ} {item : Option α} {q : RingBuf α}
    (hcall : s.call t = .flush c i item)
    (hq : q.contents = s.queue.contents ++ ((s.cache c).items.drop i).take n ∧
      q.cap = s.queue.cap) :
    QueueInv owner bufsiz
      ((s.insert (.inr c) (((s.cache c).items.drop i).take n) q).setCall t (.flush c (i + n) item))
        where
  fifo := by
    simp only [QueueState.setCall, QueueState.insert, map_append, map_map, comp_def, map_id', hq.1]
    rw [h.fifo, append_assoc]
  producer p := by
    have hp := h.producer p
    have howner := h.owned t c i item hcall
    cases p with
    | inl t' =>
      rw [pendingOf_setCall_inl]
      simp only [QueueState.setCall, QueueState.insert]
      rw [ofProducer_append_of_ne (by simp), hp]
      split_ifs with ht
      · rw [QueueState.pendingOf, ht, hcall]
        rfl
      · rfl
    | inr c' =>
      rw [pendingOf_setCall_inr]
      simp only [QueueState.setCall, QueueState.insert]
      by_cases hc : c = c'
      · subst hc
        have hdrop : (s.cache c).items.drop i =
            ((s.cache c).items.drop i).take n ++ (s.cache c).items.drop (i + n) := by
          rw [← drop_drop, take_append_drop]
        rw [ofProducer_append_self, hp, if_pos howner, QueueState.pendingOf, howner, hcall]
        simp only [QueueCall.left, if_true]
        rw [append_assoc, ← append_assoc (take _ _), ← hdrop]
      · rw [ofProducer_append_of_ne (by simpa using hc), hp]
        split_ifs with ht
        · rw [QueueState.pendingOf, ht, hcall]
          simp only [QueueCall.left, if_neg hc]
        · rfl
  owned := owned_setCall h.owned fun _ _ _ heq => by
    obtain ⟨rfl, -, -⟩ := QueueCall.flush.inj heq
    exact h.owned t c i item hcall
  cap := hq.2.trans h.cap

theorem flushed (h : QueueInv owner bufsiz s) (null : α) {i : ℕ} {item : Option α}
    (hcall : s.call t = .flush c i item) (hi : (s.cache c).items.length ≤ i) :
    QueueInv owner bufsiz (s.flushed null t c item) where
  fifo := h.fifo
  producer p := by
    have hp := h.producer p
    have howner := h.owned t c i item hcall
    unfold QueueState.flushed
    dsimp only
    cases p with
    | inl t' =>
      rw [pendingOf_setCall_inl]
      simp only [QueueState.setCall, QueueState.setCache]
      rw [hp]
      split_ifs with ht
      · rw [QueueState.pendingOf, ht, hcall]
        rfl
      · rfl
    | inr c' =>
      rw [pendingOf_setCall_inr]
      simp only [QueueState.setCall, QueueState.setCache]
      rw [hp]
      by_cases hc : c = c'
      · subst hc
        rw [if_pos howner, QueueState.pendingOf, howner, hcall, update_self]
        simp only [QueueCall.left, if_true]
        rw [drop_eq_nil_of_le hi, nil_append]
        cases item with
        | none => rfl
        | some x => rw [QueueCache.items_add]; rfl
      · simp only [QueueState.pendingOf, update_of_ne (Ne.symm hc)]
        split_ifs with ht
        · rw [ht, hcall]
          simp only [QueueCall.left, if_neg hc]
        · rfl
  owned := owned_setCall h.owned fun _ _ _ heq => by simp at heq
  cap := h.cap

/-- Items are taken out of the queue. -/
theorem dequeue (h : QueueInv owner bufsiz s) {r : List α × RingBuf α} (hcall : (s.call t).NoFlush)
    (hpending : (s.call t).pending = [])
    (hr : s.queue.contents = r.1 ++ r.2.contents ∧ r.2.cap = s.queue.cap) :
    QueueInv owner bufsiz (s.dequeue t r) where
  fifo := by
    simp only [QueueState.dequeue, QueueState.setCall, map_append, map_map, comp_def, map_id']
    rw [h.fifo, hr.1, append_assoc]
  producer p := by
    have hidle : (QueueCall.idle : QueueCall κ α).Same (s.call t) :=
      QueueCall.NoFlush.same trivial hcall hpending.symm
    have hpend : (s.setCall t .idle).pendingOf owner p = s.pendingOf owner p :=
      pendingOf_setCall_of_same hidle p
    have hp := h.producer p
    rw [← hpend] at hp
    cases p with
    | inl t' => exact hp
    | inr c => exact hp
  owned := owned_setCall h.owned fun _ _ _ heq => by simp at heq
  cap := hr.2.trans h.cap

theorem cacheEnqOne (h : QueueInv owner bufsiz s) {item : α} (howner : owner c = t)
    (hidle : s.call t = .idle) : QueueInv owner bufsiz (s.cacheEnqOne t c item) := by
  unfold QueueState.cacheEnqOne
  split_ifs with hfull
  · refine ⟨h.fifo, fun p => ?_, owned_setCall h.owned fun _ _ _ heq => ?_, h.cap⟩
    · have hp := h.producer p
      cases p with
      | inl t' =>
        rw [pendingOf_setCall_inl]
        simp only [QueueState.setCall, QueueState.submit, update_apply, reduceCtorEq, if_false]
        rw [hp]
        split_ifs with ht
        · rw [QueueState.pendingOf, ht, hidle]
          rfl
        · rfl
      | inr c' =>
        rw [pendingOf_setCall_inr]
        simp only [QueueState.setCall, QueueState.submit, update_apply, Sum.inr.injEq]
        by_cases hc : c' = c
        · subst hc
          rw [if_pos rfl, if_pos howner, hp, QueueState.pendingOf, howner, hidle]
          simp [QueueCall.left]
        · rw [if_neg hc, hp]
          split_ifs with ht
          · rw [QueueState.pendingOf, ht, hidle]
            simp only [QueueCall.left, if_neg (Ne.symm hc)]
          · rfl
    · obtain ⟨rfl, -, -⟩ := QueueCall.flush.inj heq
      exact howner
  · refine ⟨h.fifo, fun p => ?_, h.owned, h.cap⟩
    have hp := h.producer p
    cases p with
    | inl t' => simpa [QueueState.setCache, QueueState.submit, QueueState.pendingOf] using hp
    | inr c' =>
      simp only [QueueState.setCache, QueueState.submit, QueueState.pendingOf,
        update_apply, Sum.inr.injEq]
      split_ifs with hc
      · subst hc
        rw [hp, QueueState.pendingOf, howner, hidle, QueueCache.items_add]
        simp [QueueCall.left]
      · exact hp

theorem lock (h : QueueInv owner bufsiz s) (null : α) (hstep : s.lock null t = some s') :
    QueueInv owner bufsiz s' := by
  unfold QueueState.lock at hstep
  cases hcall : s.call t with
  | idle => simp [hcall] at hstep
  | enqOne item =>
    simp only [hcall] at hstep
    cases hq : queueEnqOne s.queue item with
    | none =>
      simp only [hq, Option.some.injEq] at hstep
      exact hstep ▸ h
    | some q =>
      simp only [hq, Option.some.injEq] at hstep
      subst hstep
      exact h.insert (by rw [hcall]; trivial) trivial (by rw [hcall]; rfl) (queueEnqOne_eq_some hq)
  | enqMany items i =>
    simp only [hcall] at hstep
    have hq := queueEnqMany_spec s.queue (items.drop i)
    generalize queueEnqMany s.queue (items.drop i) = r at hstep hq
    have hdrop : items.drop i = (items.drop i).take r.2 ++ items.drop (i + r.2) := by
      rw [← drop_drop, take_append_drop]
    split_ifs at hstep with hi
    · obtain rfl := Option.some.inj hstep
      exact h.insert (by rw [hcall]; trivial) trivial (by rw [hcall]; exact hdrop) hq
    · obtain rfl := Option.some.inj hstep
      rw [drop_eq_nil_of_le (show items.length ≤ i + r.2 by omega)] at hdrop
      exact h.insert (by rw [hcall]; trivial) trivial (by rw [hcall]; exact hdrop) hq
  | flush c i item =>
    simp only [hcall] at hstep
    have hq := queueEnqMany_spec s.queue ((s.cache c).items.drop i)
    generalize queueEnqMany s.queue ((s.cache c).items.drop i) = r at hstep hq
    have hnext := h.insert_cached hcall hq
    split_ifs at hstep with hi
    · obtain rfl := Option.some.inj hstep
      exact hnext
    · obtain rfl := Option.some.inj hstep
      have hdone := hnext.flushed null (setCall_call_self _ t _)
        (show (s.cache c).items.length ≤ i + r.2 by omega)
      unfold QueueState.flushed QueueState.setCall at hdone
      dsimp only [QueueState.setCache] at hdone
      rw [update_idem] at hdone
      exact hdone
  | deqOne =>
    simp only [hcall, Option.some.injEq] at hstep
    subst hstep
    cases hq : queueDeqOne null s.queue with
    | none => exact h
    | some r =>
      exact h.dequeue (by rw [hcall]; trivial) (by rw [hcall]; rfl)
        (queueDeqOne_eq_some hq)
  | deqMany sz =>
    simp only [hcall, Option.some.injEq] at hstep
    subst hstep
    cases hq : queueDeqMany null s.queue sz with
    | none => exact h
    | some r =>
      exact h.dequeue (by rw [hcall]; trivial) (by rw [hcall]; rfl)
        (queueDeqMany_eq_some hq)
  | timeddeqMany sz waited =>
    simp only [hcall, Option.some.injEq] at hstep
    subst hstep
    cases hq : queueTimeddeqMany null s.queue sz with
    | none =>
      refine h.setCall (QueueCall.NoFlush.same trivial ?_ ?_) fun _ _ _ heq => by simp at heq
      · rw [hcall]
        trivial
      · rw [hcall]
        rfl
    | some r =>
      exact h.dequeue (by rw [hcall]; trivial) (by rw [hcall]; rfl)
        (queueDeqMany_eq_some hq)

omit [DecidableEq τ] [DecidableEq κ] in
theorem begin_eq_some {k : QueueState τ κ α} (h : s.begin t k = some s') :
    s.call t = .idle ∧ k = s' := by
  unfold QueueState.begin at h
  split at h
  · exact ⟨‹_›, Option.some.inj h⟩
  · simp at h

/-- Every step keeps the invariant. -/
theorem step (h : QueueInv owner bufsiz s) (null : α) {a : QueueAction τ κ α}
    (hstep : s.step null owner a = some s') : QueueInv owner bufsiz s' := by
  cases a with
  | enqOne t item =>
    obtain ⟨hidle, rfl⟩ := begin_eq_some hstep
    exact h.submit hidle (k := .enqOne item) trivial
  | enqMany t items =>
    obtain ⟨hidle, rfl⟩ := begin_eq_some hstep
    exact h.submit hidle (k := .enqMany items 0) trivial
  | deqOne t =>
    obtain ⟨hidle, rfl⟩ := begin_eq_some hstep
    exact h.setCall (by rw [hidle]; exact QueueCall.NoFlush.same trivial trivial rfl)
      fun _ _ _ heq => by
      simp at heq
  | deqMany t sz =>
    obtain ⟨hidle, rfl⟩ := begin_eq_some hstep
    exact h.setCall (by rw [hidle]; exact QueueCall.NoFlush.same trivial trivial rfl)
      fun _ _ _ heq => by
      simp at heq
  | timeddeqMany t sz =>
    obtain ⟨hidle, rfl⟩ := begin_eq_some hstep
    exact h.setCall (by rw [hidle]; exact QueueCall.NoFlush.same trivial trivial rfl)
      fun _ _ _ heq => by
      simp at heq
  | cacheEnqOne t c item =>
    simp only [QueueState.step] at hstep
    split_ifs at hstep with howner
    obtain ⟨hidle, rfl⟩ := begin_eq_some hstep
    exact h.cacheEnqOne howner hidle
  | cacheFlush t c =>
    simp only [QueueState.step] at hstep
    split_ifs at hstep with howner
    obtain ⟨hidle, rfl⟩ := begin_eq_some hstep
    refine h.setCall ?_ fun c' i item heq => ?_
    · rw [hidle]
      exact ⟨rfl, fun c' items => by simp [QueueCall.left]⟩
    · obtain ⟨rfl, -, -⟩ := QueueCall.flush.inj heq
      exact howner
  | lock t => exact h.lock null hstep
  | timeout t =>
    simp only [QueueState.step, QueueState.timeout] at hstep
    split at hstep
    · obtain rfl := Option.some.inj hstep
      refine h.setCall ?_ fun _ _ _ heq => by simp at heq
      rw [‹s.call t = _›]
      exact QueueCall.NoFlush.same trivial trivial rfl
    · simp at hstep

theorem init (null : α) (hbufsiz : 0 < bufsiz) (capacity : κ → ℕ) :
    QueueInv owner bufsiz (queueInit null bufsiz hbufsiz capacity : QueueState τ κ α) where
  fifo := by simp [queueInit]
  producer p := by
    cases p with
    | inl t => rfl
    | inr c => rfl
  owned t c i item heq := by simp [queueInit] at heq
  cap := rfl

end QueueInv

/-! ## Runs -/

/-- In every run of any number of threads and caches: the items taken out are the first of the items
put in, the others are in the queue in their order, the items of a producer are put in the queue in
the order in which it hands them over, and those that are not in it yet still wait in its cache or
call, and the queue never holds `bufsiz` items. -/
theorem queue_fifo (null : α) (owner : κ → τ) (capacity : κ → ℕ) (hbufsiz : 2 ≤ bufsiz)
    (as : List (QueueAction τ κ α))
    (hrun : run (QueueState.step null owner) (queueInit null bufsiz (by omega) capacity) as =
      some s) :
    s.dequeued.map Prod.snd <+: s.inserted.map Prod.snd ∧
      s.inserted.map Prod.snd = s.dequeued.map Prod.snd ++ s.queue.contents ∧
      (∀ p, s.submitted p = ofProducer p s.inserted ++ s.pendingOf owner p) ∧
      s.queue.contents.length ≤ bufsiz - 1 := by
  have hinv : QueueInv owner bufsiz s :=
    run_invariant (fun _ _ _ h hstep => h.step null hstep) hrun
      (QueueInv.init null (by omega) capacity)
  refine ⟨⟨s.queue.contents, hinv.fifo.symm⟩, hinv.fifo, hinv.producer, ?_⟩
  have hlt := s.queue.size_lt
  rw [hinv.cap] at hlt
  rw [RingBuf.length_contents]
  omega

/-- A batch of three items in a queue for two: the lock is given back in the middle of the batch. -/
theorem queue_fifo_batch : ∃ s : QueueState Bool Unit ℕ,
    run (QueueState.step 0 fun _ => false) (queueInit 0 3 (by omega) fun _ => 1)
      [.enqMany false [5, 6, 7], .lock false, .deqOne true, .lock true, .lock false] = some s ∧
      s.dequeued.map Prod.snd = [5] ∧ s.dequeued.map Prod.snd <+: s.inserted.map Prod.snd ∧
      s.queue.contents.length ≤ 3 - 1 := by
  refine ⟨_, rfl, by decide, ?_⟩
  have h := queue_fifo 0 (fun _ : Unit => false) (fun _ => 1) (show 2 ≤ 3 by decide)
    [.enqMany false [5, 6, 7], .lock false, .deqOne true, .lock true, .lock false] rfl
  exact ⟨h.1, h.2.2.2⟩

end Pptk.Queue
