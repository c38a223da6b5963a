import Pptk.Lib.Machine
import Pptk.Lib.RingBuf
import Mathlib.Data.List.Infix

/-!
# Bounded queue between threads

Model of `queue/queue.c` and `queue/queue.h`: a ring with a lock, and caches in which producers
gather items. A step of a thread is what it does from taking the lock to giving it back, at the end
of the call or in `pthread_cond_wait`. A thread that waits may go on at any time, so a wakeup need
not have a reason; the broadcasts only decide when a thread is woken and are left out.
-/

namespace Pptk.Queue

open Lib Function List

variable {α : Type*}

/-! ## Critical sections -/

/-- `queue_is_empty` (queue.h:35-38). -/
def queueIsEmpty (q : RingBuf α) : Bool := q.isEmpty

/-- `queue_is_full` (queue.h:40-48). -/
def queueIsFull (q : RingBuf α) : Bool := q.isFull

/-- `queue_enq_one` (queue.c:59-90) from taking the lock on: `none` if it waits. -/
def queueEnqOne (q : RingBuf α) (item : α) : Option (RingBuf α) :=
  if queueIsFull q then none else some (q.push item)

/-- `queue_enq_many` (queue.c:128-163) from taking the lock on, with the rest of `in`: the number of
items that have been put in the queue when the lock is given back. -/
def queueEnqMany (q : RingBuf α) : List α → RingBuf α × ℕ
  | [] => (q, 0)
  | item :: rest =>
    if queueIsFull q then (q, 0)
    else
      let r := queueEnqMany (q.push item) rest
      (r.1, r.2 + 1)

/-- `queue_deq_one` (queue.c:92-126) from taking the lock on: `none` if it waits. -/
def queueDeqOne (null : α) (q : RingBuf α) : Option (List α × RingBuf α) :=
  if queueIsEmpty q then none else some ([q.front], q.pop null)

/-- The loop that takes items out (queue.c:181-189, 227-235), at most `sz` of them. -/
def deqLoop (null : α) : ℕ → RingBuf α → List α × RingBuf α
  | 0, q => ([], q)
  | sz + 1, q =>
    if queueIsEmpty q then ([], q)
    else
      let r := deqLoop null sz (q.pop null)
      (q.front :: r.1, r.2)

/-- `queue_deq_many` (queue.c:165-202) from taking the lock on: `none` if it waits. -/
def queueDeqMany (null : α) (q : RingBuf α) (sz : ℕ) : Option (List α × RingBuf α) :=
  if queueIsEmpty q then none else some (deqLoop null sz q)

/-- `queue_timeddeq_many` (queue.c:204-249) from taking the lock on, if no timeout is reported. -/
def queueTimeddeqMany (null : α) (q : RingBuf α) (sz : ℕ) : Option (List α × RingBuf α) :=
  queueDeqMany null q sz

/-! ## Caches -/

/-- `struct queue_cache` (queue.h:23-28). -/
structure QueueCache (α : Type*) where
  buf : ℕ → α
  capacity : ℕ
  size : ℕ

namespace QueueCache

/-- The items in the cache. -/
def items (c : QueueCache α) : List α := (range c.size).map c.buf

/-- `cache->buf[cache->size++] = item` (queue.h:69). -/
def add (c : QueueCache α) (item : α) : QueueCache α :=
  { c with buf := update c.buf c.size item, size := c.size + 1 }

/-- The end of `queue_cache_flush` (queue.h:59-60). -/
def clear (null : α) (c : QueueCache α) : QueueCache α :=
  { c with buf := fun i => if i < c.size then null else c.buf i, size := 0 }

theorem items_add (c : QueueCache α) (item : α) : (c.add item).items = c.items ++ [item] := by
  unfold items add
  dsimp only
  rw [range_succ, map_append, map_singleton, update_self]
  congr 1
  apply map_congr_left
  intro i hi
  exact update_of_ne (mem_range.mp hi).ne item c.buf

end QueueCache

/-! ## Threads -/

/-- What a thread is doing: nothing, or a call that has not returned. `i` counts the items of a
batch that are in the queue, and `item` is what is put in the cache after it has been flushed. -/
inductive QueueCall (κ α : Type*)
  | idle
  | enqOne (item : α)
  | enqMany (items : List α) (i : ℕ)
  | flush (c : κ) (i : ℕ) (item : Option α)
  | deqOne
  | deqMany (sz : ℕ)
  | timeddeqMany (sz : ℕ) (waited : Bool)

/-- What can happen: a thread begins a call, a thread takes the lock, and a timed wait ends. -/
inductive QueueAction (τ κ α : Type*)
  | enqOne (t : τ) (item : α)
  | enqMany (t : τ) (items : List α)
  | deqOne (t : τ)
  | deqMany (t : τ) (sz : ℕ)
  | timeddeqMany (t : τ) (sz : ℕ)
  | cacheEnqOne (t : τ) (c : κ) (item : α)
  | cacheFlush (t : τ) (c : κ)
  | lock (t : τ)
  | timeout (t : τ)

/-- Who puts items in the queue: a thread by itself, or through a cache. -/
abbrev Producer (τ κ : Type*) := τ ⊕ κ

/-- The queue, the caches and the threads, with the items that the producers have handed over, that
have been put in the queue and that have been taken out by a thread, in this order. -/
structure QueueState (τ κ α : Type*) where
  queue : RingBuf α
  cache : κ → QueueCache α
  call : τ → QueueCall κ α
  submitted : Producer τ κ → List α
  inserted : List (Producer τ κ × α)
  dequeued : List (τ × α)

/-- `queue_init` (queue.c:27-57) and `queue_cache_init` (10-25) with the given sizes. -/
def queueInit {τ κ : Type*} (null : α) (bufsiz : ℕ) (hbufsiz : 0 < bufsiz) (capacity : κ → ℕ) :
    QueueState τ κ α :=
  ⟨.empty bufsiz hbufsiz null, fun c => ⟨fun _ => null, capacity c, 0⟩, fun _ => .idle, fun _ => [],
    [], []⟩

section Step

variable {τ κ : Type*} [DecidableEq τ] [DecidableEq κ] (null : α) (owner : κ → τ)

namespace QueueState

/-- A thread goes on to another call. -/
def setCall (s : QueueState τ κ α) (t : τ) (k : QueueCall κ α) : QueueState τ κ α :=
  { s with call := update s.call t k }

/-- A producer hands over some items. -/
def submit (s : QueueState τ κ α) (p : Producer τ κ) (items : List α) : QueueState τ κ α :=
  { s with submitted := update s.submitted p (s.submitted p ++ items) }

/-- Items of a producer have been put in the queue. -/
def insert (s : QueueState τ κ α) (p : Producer τ κ) (items : List α) (q : RingBuf α) :
    QueueState τ κ α :=
  { s with queue := q, inserted := s.inserted ++ items.map (p, ·) }

/-- A thread has taken items out of the queue, and its call returns. -/
def dequeue (s : QueueState τ κ α) (t : τ) (r : List α × RingBuf α) : QueueState τ κ α :=
  { s with queue := r.2, dequeued := s.dequeued ++ r.1.map (t, ·) }.setCall t .idle

def setCache (s : QueueState τ κ α) (c : κ) (x : QueueCache α) : QueueState τ κ α :=
  { s with cache := update s.cache c x }

/-- A call begins, if the thread is not in another one. -/
def begin (s : QueueState τ κ α) (t : τ) (k : QueueState τ κ α) : Option (QueueState τ κ α) :=
  match s.call t with
  | .idle => some k
  | _ => none

/-- `queue_cache_enq_one` (queue.h:63-70) up to the lock. -/
def cacheEnqOne (s : QueueState τ κ α) (t : τ) (c : κ) (item : α) : QueueState τ κ α :=
  if (s.cache c).size ≥ (s.cache c).capacity then (s.submit (.inr c) [item]).setCall t
    (.flush c 0 (some item))
  else (s.submit (.inr c) [item]).setCache c ((s.cache c).add item)

/-- What follows a flush (queue.h:59-60, 69). -/
def flushed (s : QueueState τ κ α) (t : τ) (c : κ) (item : Option α) : QueueState τ κ α :=
  let x := (s.cache c).clear null
  (s.setCache c (match item with | none => x | some item => x.add item)).setCall t .idle

/-- A thread takes the lock. If it has to wait, nothing has changed but the number of items that are
left of a batch. -/
def lock (s : QueueState τ κ α) (t : τ) : Option (QueueState τ κ α) :=
  match s.call t with
  | .idle => none
  | .enqOne item =>
    match queueEnqOne s.queue item with
    | none => some s
    | some q => some ((s.insert (.inl t) [item] q).setCall t .idle)
  | .enqMany items i =>
    let r := queueEnqMany s.queue (items.drop i)
    let s := s.insert (.inl t) ((items.drop i).take r.2) r.1
    if i + r.2 < items.length then some (s.setCall t (.enqMany items (i + r.2)))
      else some (s.setCall t .idle)
  | .flush c i item =>
    let items := (s.cache c).items
    let r := queueEnqMany s.queue (items.drop i)
    let s := s.insert (.inr c) ((items.drop i).take r.2) r.1
    if i + r.2 < items.length then some (s.setCall t (.flush c (i + r.2) item))
      else some (s.flushed null t c item)
  | .deqOne => some (match queueDeqOne null s.queue with | none => s | some r => s.dequeue t r)
  | .deqMany sz =>
    some (match queueDeqMany null s.queue sz with | none => s | some r => s.dequeue t r)
  | .timeddeqMany sz _ =>
    some (match queueTimeddeqMany null s.queue sz with
      | none => s.setCall t (.timeddeqMany sz true)
      | some r => s.dequeue t r)

/-- `pthread_cond_timedwait` reports a timeout, and `queue_timeddeq_many` returns 0. -/
def timeout (s : QueueState τ κ α) (t : τ) : Option (QueueState τ κ α) :=
  match s.call t with
  | .timeddeqMany _ true => some (s.setCall t .idle)
  | _ => none

/-- A step. A cache is used only by the thread to which it belongs. -/
def step (s : QueueState τ κ α) : QueueAction τ κ α → Option (QueueState τ κ α)
  | .enqOne t item => s.begin t ((s.submit (.inl t) [item]).setCall t (.enqOne item))
  | .enqMany t items => s.begin t ((s.submit (.inl t) items).setCall t (.enqMany items 0))
  | .deqOne t => s.begin t (s.setCall t .deqOne)
  | .deqMany t sz => s.begin t (s.setCall t (.deqMany sz))
  | .timeddeqMany t sz => s.begin t (s.setCall t (.timeddeqMany sz false))
  | .cacheEnqOne t c item => if owner c = t then s.begin t (s.cacheEnqOne t c item) else none
  | .cacheFlush t c => if owner c = t then s.begin t (s.setCall t (.flush c 0 none)) else none
  | .lock t => s.lock null t
  | .timeout t => s.timeout t

end QueueState

theorem setCall_call_self {τ κ : Type*} [DecidableEq τ] (s : QueueState τ κ α) (t : τ)
    (k : QueueCall κ α) : (s.setCall t k).call t = k := by
  show update s.call t k t = k
  exact update_self t k s.call

end Step

/-! ## Critical sections as operations on a list -/

theorem queueEnqOne_eq_some {q q' : RingBuf α} {item : α} (h : queueEnqOne q item = some q') :
    q'.contents = q.contents ++ [item] ∧ q'.cap = q.cap := by
  unfold queueEnqOne at h
  split_ifs at h with hfull
  obtain rfl := Option.some.inj h
  exact ⟨RingBuf.contents_push item (Bool.eq_false_iff.mpr hfull), rfl⟩

/-- The first items are put at the end, as many as have room. -/
theorem queueEnqMany_spec (q : RingBuf α) (items : List α) :
    (queueEnqMany q items).1.contents = q.contents ++ items.take (queueEnqMany q items).2 ∧
      (queueEnqMany q items).1.cap = q.cap := by
  induction items generalizing q with
  | nil => simp [queueEnqMany]
  | cons item rest ih =>
    unfold queueEnqMany
    split_ifs with hfull
    · simp
    · obtain ⟨hcontents, hcap⟩ := ih (q.push item)
      refine ⟨?_, hcap⟩
      dsimp only
      rw [hcontents, RingBuf.contents_push item (Bool.eq_false_iff.mpr hfull), take_succ_cons,
        append_assoc, singleton_append]

/-- The loop takes items from the front. -/
theorem deqLoop_spec (null : α) (sz : ℕ) (q : RingBuf α) :
    q.contents = (deqLoop null sz q).1 ++ (deqLoop null sz q).2.contents ∧
      (deqLoop null sz q).2.cap = q.cap := by
  induction sz generalizing q with
  | zero => simp [deqLoop]
  | succ sz ih =>
    unfold deqLoop
    split_ifs with hempty
    · simp
    · obtain ⟨hcontents, hcap⟩ := ih (q.pop null)
      refine ⟨?_, hcap⟩
      have hne : q.contents ≠ [] := fun h => hempty (q.isEmpty_iff.mpr h)
      dsimp only
      rw [cons_append, ← hcontents]
      exact RingBuf.contents_pop null hne

theorem queueDeqOne_eq_some {null : α} {q : RingBuf α} {r : List α × RingBuf α}
    (h : queueDeqOne null q = some r) : q.contents = r.1 ++ r.2.contents ∧ r.2.cap = q.cap := by
  unfold queueDeqOne at h
  split_ifs at h with hempty
  obtain rfl := Option.some.inj h
  have hne : q.contents ≠ [] := fun h => hempty (q.isEmpty_iff.mpr h)
  exact ⟨RingBuf.contents_pop null hne, rfl⟩

/-- A call that does not wait takes items from the front. -/
theorem queueDeqMany_eq_some {null : α} {q : RingBuf α} {sz : ℕ} {r : List α × RingBuf α}
    (h : queueDeqMany null q sz = some r) : q.contents = r.1 ++ r.2.contents ∧ r.2.cap = q.cap := by
  unfold queueDeqMany at h
  split_ifs at h with hempty
  obtain rfl := Option.some.inj h
  exact deqLoop_spec null sz q

/-! ## Items that have not been put in the queue yet -/

namespace QueueCall

variable {κ : Type*} [DecidableEq κ]

/-- What is left of the items that a thread puts in the queue by itself. -/
def pending : QueueCall κ α → List α
  | .enqOne item => [item]
  | .enqMany items i => items.drop i
  | _ => []

/-- What is left of the items of the cache `c`, which holds `items`. -/
def left (c : κ) (items : List α) : QueueCall κ α → List α
  | .flush c' i item => if c' = c then items.drop i ++ item.toList else items
  | _ => items

/-- Two calls with the same items left. -/
def Same (k k' : QueueCall κ α) :
    Prop := k.pending = k'.pending ∧ ∀ c items, k.left c items = k'.left c items

end QueueCall

/-- The items of one producer. -/
def ofProducer {τ κ : Type*} [DecidableEq τ] [DecidableEq κ] (p : Producer τ κ)
    (l : List (Producer τ κ × α)) : List α :=
  (l.filter fun x => x.1 = p).map Prod.snd

section Producer

variable {τ κ : Type*} [DecidableEq τ] [DecidableEq κ]

theorem ofProducer_append_self (p : Producer τ κ) (l : List (Producer τ κ × α)) (items : List α) :
    ofProducer p (l ++ items.map (p, ·)) = ofProducer p l ++ items := by
  simp [ofProducer, filter_append, filter_map, comp_def]

theorem ofProducer_append_of_ne {p p' : Producer τ κ} (h : p' ≠ p) (l : List (Producer τ κ × α))
    (items : List α) : ofProducer p (l ++ items.map (p', ·)) = ofProducer p l := by
  simp [ofProducer, filter_append, filter_map, comp_def, h]

end Producer

namespace QueueState

variable {τ κ : Type*} [DecidableEq τ] [DecidableEq κ] (owner : κ → τ)

/-- The items of a producer that have been handed over and are not in the queue yet. -/
def pendingOf (s : QueueState τ κ α) : Producer τ κ → List α
  | .inl t => (s.call t).pending
  | .inr c => (s.call (owner c)).left c (s.cache c).items

end QueueState

/-- What holds in every state. -/
structure QueueInv {τ κ : Type*} [DecidableEq τ] [DecidableEq κ] (owner : κ → τ) (bufsiz : ℕ)
    (s : QueueState τ κ α) : Prop where
  fifo : s.inserted.map Prod.snd = s.dequeued.map Prod.snd ++ s.queue.contents
  producer : ∀ p, s.submitted p = ofProducer p s.inserted ++ s.pendingOf owner p
  owned : ∀ t c i item, s.call t = .flush c i item → owner c = t
  cap : s.queue.cap = bufsiz

end Pptk.Queue
