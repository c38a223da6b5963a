import Pptk.Lib.Loop
import Pptk.Timer.LinkHeapCorrect
import Pptk.Timer.Slot

/-!
# Timer wheel of linked heaps

Model of `timerlinkheap/timerlinkwheel.c` and `timerlinkheap/timerlinkwheel.h`, without locks. A
slot of the wheel is a heap of `Pptk.Timer.LinkHeap`; all heaps share the links of the timers.

The wheel has a log beside it, which the code does not have: of the calls that are made, and of the
callbacks. It says which timers are pending, and callbacks may depend on it: they need not do the
same thing twice.

Main results: `linkwheel_correct` and `linkwheel_keeps_late_timer`.
-/

namespace Pptk.Timer

open Lib Function List Option

/-- What happens to a timer: it is added with a time, removed, or fired when it has the time `t`, in
a call of `timer_linkwheel_process` at `curtime64`. -/
inductive WheelEvent
  | added (k t : ℕ)
  | removed (k : ℕ)
  | fired (k t curtime64 : ℕ)
deriving DecidableEq, Repr

/-- The pending timers after an event, each with its time. -/
def WheelEvent.pending (q : ℕ → Option ℕ) : WheelEvent → ℕ → Option ℕ
  | .added k t => update q k (some t)
  | .removed k => update q k none
  | .fired k _ _ => update q k none

/-- `struct timer_linkwheel` (timerlinkwheel.h:14-21), with the fields of all timers
(`struct timer_linkwheel_task`, lines 23-26) and the log. -/
structure LinkWheel where
  time64 : ℕ → ℕ
  parent : ℕ → Option ℕ
  left : ℕ → Option ℕ
  right : ℕ → Option ℕ
  idx : ℕ → ℕ
  roots : ℕ → Option ℕ
  sizes : ℕ → ℕ
  curidx : ℕ
  size : ℕ
  granularity : ℕ
  nextTime64 : ℕ
  log : List WheelEvent

namespace LinkWheel

variable (w : LinkWheel) (k : ℕ)

/-- `timer_linkwheel_init` (timerlinkwheel.h:33-80). -/
def init (granularity size nextTime64 : ℕ) : LinkWheel :=
  { w with
    roots := fun _ => none, sizes := fun _ => 0, curidx := 0, size := size
    granularity := granularity, nextTime64 := nextTime64, log := [] }

/-- `&wheel->timers[i]`. -/
def heap (i : ℕ) : LinkHeap := ⟨w.time64, w.parent, w.left, w.right, w.roots i, w.sizes i⟩

/-- The heap of slot `i` has been changed. -/
def setHeap (i : ℕ) (h : LinkHeap) : LinkWheel :=
  { w with
    time64 := h.time64, parent := h.parent, left := h.left, right := h.right
    roots := update w.roots i h.root, sizes := update w.sizes i h.size }

/-- The assignment of a new time to a timer. -/
def setTime (t : ℕ) : LinkWheel := { w with time64 := update w.time64 k t }

/-- Something is added to the log. -/
def note (e : WheelEvent) : LinkWheel := { w with log := w.log ++ [e] }

/-- The pending timers, each with its time. -/
def pending : ℕ → Option ℕ := w.log.foldl WheelEvent.pending fun _ => none

/-- `idx` of `timer_linkwheel_add` (timerlinkwheel.c:9-16). -/
def slot (t : ℕ) : ℕ := (w.curidx + wheelDiff t w.nextTime64 w.granularity) % w.size

/-- `timer_linkwheel_add` (timerlinkwheel.c:7-33). -/
def add : Option LinkWheel :=
  let idx := w.slot (w.time64 k)
  ((w.heap idx).add k).map fun h =>
    { w.setHeap idx h with idx := update w.idx k idx }

/-- `timer_linkwheel_remove` (timerlinkwheel.h:132-150). -/
def remove : Option LinkWheel :=
  ((w.heap (w.idx k)).remove k).map fun h => w.setHeap (w.idx k) h

/-- `timer_linkwheel_modify` (timerlinkwheel.h:152-156). -/
def modify : Option LinkWheel := (w.remove k).bind fun w => w.add k

end LinkWheel

/-- The wheel after a call, which is noted. A timer gets its time before it is added or modified. -/
def LinkOp.onWheel (w : LinkWheel) : LinkOp → Option LinkWheel
  | .add k t => ((w.setTime k t).add k).map fun w => w.note (.added k t)
  | .remove k => (w.remove k).map fun w => w.note (.removed k)
  | .modify k t => ((w.setTime k t).modify k).map fun w => (w.note (.removed k)).note (.added k t)

namespace LinkWheel

variable (w : LinkWheel) (k : ℕ)

/-- A timer of the current slot is taken out and its callback is called, which may call other
functions of the wheel (timerlinkwheel.h:113-114). -/
def fire (curtime64 : ℕ) (cb : LinkWheel → ℕ → List LinkOp) : Option LinkWheel := do
  let h ← (w.heap w.curidx).remove k
  let w := (w.setHeap w.curidx h).note (.fired k (w.time64 k) curtime64)
  (cb w k).foldlM LinkOp.onWheel w

/-- The end of a step of the wheel (timerlinkwheel.h:123-128). -/
def tick : LinkWheel :=
  { w with
    nextTime64 := (w.nextTime64 + w.granularity) % 2 ^ 64
    curidx := nextIdx w.size w.curidx }

/-- One iteration of the loops of `timer_linkwheel_process` (timerlinkwheel.h:95-129): of the inner
one, or of the outer one when the inner one ends. Nothing that the inner one does changes the
condition of the outer one. -/
def processBody (curtime64 : ℕ) (cb : LinkWheel → ℕ → List LinkOp) : LinkWheel ⊕ Option LinkWheel :=
  if curtime64 ≥ w.nextTime64 then
    match (w.heap w.curidx).nextExpiryTimer with
    | none => .inl w.tick
    | some link =>
      if w.time64 link ≥ (w.nextTime64 + w.granularity) % 2 ^ 64 then .inl w.tick
      else
        match w.fire link curtime64 cb with
        | none => .inr none
        | some w => .inl w
  else .inr (some w)

/-- `timer_linkwheel_process` (timerlinkwheel.h:89-130) returns; `none` stands for an abort. It need
not return: a callback can add late timers again and again. -/
def ProcessReturns (curtime64 : ℕ) (cb : LinkWheel → ℕ → List LinkOp) (r : Option LinkWheel) :
    Prop :=
  Returns (fun w => processBody w curtime64 cb) w r

end LinkWheel

/-! ## Runs -/

/-- Times that are set are below `2^63`. -/
def LinkOp.Below : LinkOp → Prop
  | .add _ t => t < 2 ^ 63
  | .remove _ => True
  | .modify _ t => t < 2 ^ 63

/-- What callbacks do is allowed, whatever has happened before. -/
def CallbackAllowed (cb : LinkWheel → ℕ → List LinkOp) : Prop :=
  ∀ w k, LinkOp.AllowedAll w.pending (cb w k) ∧ ∀ op ∈ cb w k, op.Below

/-- The wheel after a sequence of calls. -/
inductive LinkWheelRun (w0 : LinkWheel) : LinkWheel → Prop
  | init : LinkWheelRun w0 w0
  | call {w w' : LinkWheel} {op : LinkOp} : LinkWheelRun w0 w → op.Allowed w.pending → op.Below →
      op.onWheel w = some w' → LinkWheelRun w0 w'
  | process {w w' : LinkWheel} {curtime64 : ℕ} {cb : LinkWheel → ℕ → List LinkOp} :
      LinkWheelRun w0 w → curtime64 < 2 ^ 63 → CallbackAllowed cb →
      w.ProcessReturns curtime64 cb (some w') → LinkWheelRun w0 w'

/-! ## Log -/

/-- The timer is fired or removed. -/
def WheelEvent.Takes (k : ℕ) : WheelEvent → Bool
  | .added _ _ => false
  | .removed j => j = k
  | .fired j _ _ => j = k

/-- The timer is added. -/
def WheelEvent.Adds (k : ℕ) : WheelEvent → Bool
  | .added j _ => j = k
  | _ => false

/-- At all times a timer has been taken out once for every time it has been added, except for the
last time if it is pending. -/
def Alternates (log : List WheelEvent) : Prop :=
  ∀ l k, l <+: log → l.countP (·.Takes k) +
    ((l.foldl WheelEvent.pending fun _ => none) k).isSome.toNat = l.countP (·.Adds k)

section Log

variable {log : List WheelEvent} {k : ℕ}

theorem Alternates.nil : Alternates [] := by
  intro l k hl
  rw [prefix_nil.mp hl]
  rfl

theorem Alternates.snoc (h : Alternates log) {e : WheelEvent}
    (he : ∀ k, (e.Takes k).toNat +
      (e.pending (log.foldl WheelEvent.pending fun _ => none) k).isSome.toNat =
      ((log.foldl WheelEvent.pending fun _ => none) k).isSome.toNat + (e.Adds k).toNat) :
    Alternates (log ++ [e]) := by
  intro l k hl
  rcases prefix_concat_iff.mp hl with rfl | hl
  · have hlog := h log k prefix_rfl
    have hk := he k
    rw [foldl_append, foldl_cons, foldl_nil, countP_append, countP_append,
      countP_singleton, countP_singleton]
    cases hT : e.Takes k <;> cases hA : e.Adds k <;>
      simp only [hT, hA, Bool.toNat_true, Bool.toNat_false,
      if_true, Bool.false_eq_true, if_false] at hk ⊢ <;> omega
  · exact h l k hl

theorem Alternates.snoc_added (h : Alternates log) (t : ℕ)
    (hk : (log.foldl WheelEvent.pending fun _ => none) k = none) :
    Alternates (log ++ [.added k t]) := by
  refine h.snoc fun j => ?_
  by_cases hj : j = k
  · subst hj
    simp [WheelEvent.Takes, WheelEvent.Adds, WheelEvent.pending, hk]
  · simp [WheelEvent.Takes, WheelEvent.Adds, WheelEvent.pending, hj, Ne.symm hj]

/-- An event that takes out the timer `k`. -/
def WheelEvent.TakesOut (e : WheelEvent) (k : ℕ) : Prop := e = .removed k ∨ ∃ t c, e = .fired k t c

theorem WheelEvent.TakesOut.pending_eq {e : WheelEvent} (he : e.TakesOut k) (q : ℕ → Option ℕ) :
    e.pending q = update q k none := by
  rcases he with rfl | ⟨t, c, rfl⟩ <;> rfl

theorem Alternates.snoc_takesOut (h : Alternates log) {e : WheelEvent} (he : e.TakesOut k)
    (hk : (log.foldl WheelEvent.pending fun _ => none) k ≠ none) : Alternates (log ++ [e]) := by
  have hsome := isSome_iff_ne_none.mpr hk
  refine h.snoc fun j => ?_
  rw [he.pending_eq]
  by_cases hj : j = k
  · subst hj
    rcases he with rfl | ⟨t, c, rfl⟩ <;> simp [WheelEvent.Takes, WheelEvent.Adds, hsome]
  · rcases he with rfl | ⟨t, c, rfl⟩ <;>
      simp [WheelEvent.Takes, WheelEvent.Adds, hj, Ne.symm hj]

end Log

/-! ## Invariant -/

/-- The slots are heaps of the timers `arr`, each timer in one slot. -/
structure LinkWheel.Shape (w : LinkWheel) (arr : ℕ → List ℕ) : Prop where
  rep : ∀ i, (w.heap i).Rep (arr i)
  ordered : ∀ i, (w.heap i).Ordered (arr i)
  unique : ∀ i j k, k ∈ arr i → k ∈ arr j → i = j
  idx : ∀ i k, k ∈ arr i → w.idx k = i

/-- What holds between two calls, and while callbacks are called. Timers that are added when
`next_time64` has got to `2^63` may be anywhere, but they are never processed. -/
structure LinkWheelInv (w : LinkWheel) (arr : ℕ → List ℕ) : Prop extends w.Shape arr where
  size_pos : 0 < w.size
  gran_pos : 0 < w.granularity
  gran_lt : w.granularity < 2 ^ 32
  curidx_lt : w.curidx < w.size
  mem : ∀ k, (∃ i, k ∈ arr i) ↔ w.pending k ≠ none
  time : ∀ k t, w.pending k = some t → w.time64 k = t
  slot : w.nextTime64 < 2 ^ 63 → ∀ i k, k ∈ arr i →
    w.time64 k < 2 ^ 63 ∧ i = (w.curidx + (w.time64 k - w.nextTime64) / w.granularity) % w.size
  alternates : Alternates w.log
  fired : ∀ k t c, .fired k t c ∈ w.log → t < c + w.granularity

/-- The clock and the parameters of the wheel are the same. -/
def LinkWheel.SameClock (w w' : LinkWheel) : Prop :=
  w'.size = w.size ∧ w'.granularity = w.granularity ∧ w'.curidx = w.curidx ∧
    w'.nextTime64 = w.nextTime64

section Ops

variable {w : LinkWheel} {arr : ℕ → List ℕ} {i k : ℕ}

theorem pending_note (w : LinkWheel) (e : WheelEvent) :
    (w.note e).pending = e.pending w.pending := by
  unfold LinkWheel.pending LinkWheel.note
  rw [foldl_append]
  rfl

theorem LinkWheel.heap_setHeap_self (w : LinkWheel) (i : ℕ) (h : LinkHeap) :
    (w.setHeap i h).heap i = h := by
  simp [LinkWheel.heap, LinkWheel.setHeap]

theorem LinkWheel.rep_setHeap {S P : ℕ → Prop} {h : LinkHeap} {l : List ℕ}
    (hrep : ∀ j, (w.heap j).Rep (arr j)) (hord : ∀ j, j ≠ i → (w.heap j).Ordered (arr j))
    (hb : LinkHeap.Becomes (w.heap i) S P h l) (hS : ∀ k j, S k → k ∈ arr j → j = i) (j : ℕ) :
    ((w.setHeap i h).heap j).Rep (update arr i l j) ∧
      ((w.setHeap i h).heap j).Ordered (update arr i l j) := by
  by_cases hji : j = i
  · subst hji
    rw [LinkWheel.heap_setHeap_self, update_self]
    exact ⟨hb.rep, hb.ordered⟩
  · rw [update_of_ne hji]
    have hsame : ∀ k ∈ arr j, h.left k = w.left k ∧ h.right k = w.right k ∧
      h.parent k = w.parent k := fun k hk => hb.frame k fun hSk => hji (hS k j hSk hk)
    refine ⟨(hrep j).congr ?_ ?_ hsame, fun c p hc hcp => ?_⟩
    · simp [LinkWheel.heap, LinkWheel.setHeap, hji]
    · simp [LinkWheel.heap, LinkWheel.setHeap, hji]
    · change h.parent c = some p at hcp
      change h.time64 p ≤ h.time64 c
      rw [hb.time64]
      rw [(hsame c hc).2.2] at hcp
      exact hord j hji c p hc hcp

theorem LinkWheelInv.take (hw : LinkWheelInv w arr) (hk : k ∈ arr i) (t : ℕ) :
    ∃ h l, ((w.setTime k t).heap i).remove k = some h ∧
      ∀ e : WheelEvent, e.TakesOut k → (∀ t c, e = .fired k t c → t < c + w.granularity) →
        LinkWheelInv (((w.setTime k t).setHeap i h).note e) (update arr i l) := by
  have hpend : w.pending k ≠ none := (hw.mem k).mp ⟨i, hk⟩
  obtain ⟨h, l, hrem, hb⟩ := LinkHeap.remove_spec ((hw.rep i).setTime k t) hk
    ((hw.ordered i).setTime_around (hw.rep i).linkedOn k t)
  have hshape := LinkWheel.rep_setHeap (w := w.setTime k t) (fun j => (hw.rep j).setTime k t)
    (fun j hj => (hw.ordered j).setTime_of_not_mem (hw.rep j).linkedOn
      (fun hkj => hj (hw.unique j i k hkj hk)) t) hb (fun j i' hj hj' => hw.unique i' i j hj' hj)
  have hmem : ∀ i' j, j ∈ update arr i l i' ↔ j ∈ arr i' ∧ j ≠ k := by
    intro i' j
    by_cases hi : i' = i
    · subst hi
      rw [update_self, hb.mem]
    · rw [update_of_ne hi]
      constructor
      · intro hj
        refine ⟨hj, ?_⟩
        rintro rfl
        exact hi (hw.unique i' i j hj hk)
      · exact And.left
  refine ⟨h, l, hrem, fun e he hfired => ?_⟩
  have hpending : (((w.setTime k t).setHeap i h).note e).pending =
    update w.pending k none := by
    rw [pending_note, he.pending_eq]
    rfl
  have htime : ∀ j, j ≠ k → h.time64 j = w.time64 j := by
    intro j hj
    rw [hb.time64]
    exact update_of_ne hj ..
  constructor
  · refine ⟨fun j => (hshape j).1, fun j => (hshape j).2, fun a b j ha hb' => ?_, fun a j ha => ?_⟩
    · exact hw.unique a b j ((hmem a j).mp ha).1 ((hmem b j).mp hb').1
    · exact hw.idx a j ((hmem a j).mp ha).1
  · exact hw.size_pos
  · exact hw.gran_pos
  · exact hw.gran_lt
  · exact hw.curidx_lt
  · intro j
    rw [hpending, update_apply]
    split_ifs with hj
    · simp [hmem, hj]
    · simp [hmem, hj, ← hw.mem]
  · intro j u hj
    rw [hpending, update_apply] at hj
    split_ifs at hj with hjk
    exact (htime j hjk).trans (hw.time j u hj)
  · intro hnext i' j hj
    obtain ⟨hj, hjk⟩ := (hmem i' j).mp hj
    have := hw.slot hnext i' j hj
    rw [← htime j hjk] at this
    exact this
  · exact hw.alternates.snoc_takesOut he hpend
  · intro j u c hj
    rcases mem_append.mp hj with hj | hj
    · exact hw.fired j u c hj
    · obtain rfl := mem_singleton.mp hj
      rcases he with he | ⟨t', c', he⟩
      · simp at he
      · obtain ⟨rfl, rfl, rfl⟩ := WheelEvent.fired.inj he
        exact hfired u c rfl

theorem LinkWheelInv.setTime (hw : LinkWheelInv w arr) (hk : w.pending k = none) (t : ℕ) :
    LinkWheelInv (w.setTime k t) arr := by
  have hnot : ∀ i, k ∉ arr i := fun i hi => (hw.mem k).mp ⟨i, hi⟩ hk
  have htime : ∀ j, j ≠ k → (w.setTime k t).time64 j = w.time64 j := fun j hj => update_of_ne hj ..
  refine ⟨⟨fun j => (hw.rep j).setTime k t, fun j => (hw.ordered j).setTime_of_not_mem
    (hw.rep j).linkedOn (hnot j) t, hw.unique, hw.idx⟩, hw.size_pos, hw.gran_pos, hw.gran_lt,
      hw.curidx_lt,
    hw.mem, fun j u hj => ?_, fun hnext i j hj => ?_, hw.alternates, hw.fired⟩
  · have hjk : j ≠ k := by
      rintro rfl
      exact absurd (hk.symm.trans hj) (by simp)
    exact (htime j hjk).trans (hw.time j u hj)
  · rw [htime j (ne_of_mem_of_not_mem hj (hnot i))]
    exact hw.slot hnext i j hj

/-- The invariant holds again when the call has been noted. -/
theorem LinkWheelInv.add (hw : LinkWheelInv w arr) (hk : w.pending k = none)
    (ht : w.time64 k < 2 ^ 63) :
    ∃ w' arr', w.add k = some w' ∧ LinkWheelInv (w'.note (.added k (w.time64 k))) arr' ∧
      w.SameClock w' ∧
      w'.pending = w.pending := by
  have hnot : ∀ i, k ∉ arr i := fun i hi => (hw.mem k).mp ⟨i, hi⟩ hk
  obtain ⟨h, l, hadd, hb⟩ := LinkHeap.add_spec (hw.rep (w.slot (w.time64 k))) (hw.ordered _)
    (hnot _)
  have hshape := LinkWheel.rep_setHeap hw.rep (fun j _ => hw.ordered j) hb (by
    rintro j i' (hj | rfl) hj'
    · exact hw.unique i' _ j hj' hj
    · exact absurd hj' (hnot i'))
  have hmem : ∀ i' j, j ∈ update arr (w.slot (w.time64 k)) l i' ↔
      j ∈ arr i' ∨ (j = k ∧ i' = w.slot (w.time64 k)) := by
    intro i' j
    by_cases hi : i' = w.slot (w.time64 k)
    · subst hi
      rw [update_self, hb.mem]
      simp
    · rw [update_of_ne hi]
      simp [hi]
  refine ⟨{ w.setHeap (w.slot (w.time64 k)) h with
      idx := update w.idx k (w.slot (w.time64 k)) },
    update arr (w.slot (w.time64 k)) l, by rw [LinkWheel.add, hadd]; rfl, ?_,
    ⟨rfl, rfl, rfl, rfl⟩, rfl⟩
  have htime : h.time64 = w.time64 := hb.time64
  constructor
  · refine ⟨fun j => (hshape j).1, fun j => (hshape j).2, fun a b j ha hb' => ?_, fun a j ha => ?_⟩
    · rcases (hmem a j).mp ha with ha | ⟨rfl, rfl⟩ <;> rcases (hmem b j).mp hb' with hb' | ⟨hj, hbs⟩
      · exact hw.unique a b j ha hb'
      · exact absurd (hj ▸ ha) (hnot a)
      · exact absurd hb' (hnot b)
      · exact hbs.symm
    · change update w.idx k _ j = a
      rcases (hmem a j).mp ha with ha | ⟨rfl, rfl⟩
      · rw [update_of_ne (ne_of_mem_of_not_mem ha (hnot a))]
        exact hw.idx a j ha
      · rw [update_self]
  · exact hw.size_pos
  · exact hw.gran_pos
  · exact hw.gran_lt
  · exact hw.curidx_lt
  · intro j
    rw [pending_note]
    change _ ↔ update w.pending k _ j ≠ none
    rw [update_apply]
    split_ifs with hj
    · simp [hmem, hj]
    · simp [hmem, hj, ← hw.mem]
  · intro j u hj
    rw [pending_note] at hj
    change update w.pending k _ j = some u at hj
    change h.time64 j = u
    rw [htime]
    rw [update_apply] at hj
    split_ifs at hj with hjk
    · rw [hjk]
      exact some.inj hj
    · exact hw.time j u hj
  · intro hnext i' j hj
    change h.time64 j < 2 ^ 63 ∧
      i' = (w.curidx + (h.time64 j - w.nextTime64) / w.granularity) % w.size
    rw [htime]
    rcases (hmem i' j).mp hj with hj | ⟨rfl, rfl⟩
    · exact hw.slot hnext i' j hj
    · refine ⟨ht, ?_⟩
      exact congrArg (fun d => (w.curidx + d) % w.size) (wheelDiff_eq w.granularity ht hnext)
  · exact hw.alternates.snoc_added _ hk
  · intro j u c hj
    rcases mem_append.mp hj with hj | hj
    · exact hw.fired j u c hj
    · simp at hj

theorem LinkWheel.setTime_self (w : LinkWheel) (k : ℕ) : w.setTime k (w.time64 k) = w := by
  rw [LinkWheel.setTime, update_eq_self]

theorem LinkWheelInv.remove (hw : LinkWheelInv w arr) (hk : w.pending k ≠ none) (t : ℕ) :
    ∃ w' arr', (w.setTime k t).remove k = some w' ∧ LinkWheelInv (w'.note (.removed k)) arr' ∧
      w.SameClock w' ∧
      w'.pending = w.pending ∧ w'.time64 k = t := by
  obtain ⟨i, hi⟩ := (hw.mem k).mpr hk
  obtain ⟨h, l, hrem, hinv⟩ := hw.take hi t
  have hidx : (w.setTime k t).idx k = i := hw.idx i k hi
  refine ⟨_, _, by rw [LinkWheel.remove, hidx, hrem]; rfl, hinv (.removed k) (.inl rfl) (by simp),
    ⟨rfl, rfl, rfl, rfl⟩, rfl, ?_⟩
  obtain ⟨h', l', hrem', hb⟩ := LinkHeap.remove_spec ((hw.rep i).setTime k t) hi
    ((hw.ordered i).setTime_around (hw.rep i).linkedOn k t)
  obtain rfl := some.inj (hrem.symm.trans hrem')
  change h.time64 k = t
  rw [hb.time64]
  exact update_self ..

theorem LinkWheel.add_note (w : LinkWheel) (k : ℕ) (e : WheelEvent) :
    (w.note e).add k = (w.add k).map fun w => w.note e := by
  rw [LinkWheel.add, LinkWheel.add, Option.map_map]
  rfl

/-- A call keeps `LinkWheelInv`. -/
theorem LinkWheelInv.call (hw : LinkWheelInv w arr) {op : LinkOp} (hop : op.Allowed w.pending)
    (hbelow : op.Below) :
    ∃ w' arr', op.onWheel w = some w' ∧ LinkWheelInv w' arr' ∧ w.SameClock w' ∧
      w'.pending = op.pending w.pending := by
  cases op with
  | add k t =>
    have htime : (w.setTime k t).time64 k = t := update_self ..
    obtain ⟨w', arr', hadd, hinv, hclock, hpend⟩ :=
      (hw.setTime hop t).add hop (by rw [htime]; exact hbelow)
    rw [htime] at hinv
    exact ⟨_, arr', by rw [LinkOp.onWheel, hadd]; rfl, hinv,
      hclock, by rw [pending_note, hpend]; rfl⟩
  | remove k =>
    obtain ⟨w', arr', hrem, hinv, hclock, hpend, -⟩ := hw.remove hop (w.time64 k)
    rw [LinkWheel.setTime_self] at hrem
    exact ⟨_, arr', by rw [LinkOp.onWheel, hrem]; rfl, hinv,
      hclock, by rw [pending_note, hpend]; rfl⟩
  | modify k t =>
    obtain ⟨w1, arr1, hrem, hinv1, hclock1, hpend1, htime⟩ := hw.remove hop t
    have hpend : (w1.note (.removed k)).pending = update w.pending k none := by
      rw [pending_note, hpend1]
      rfl
    -- adding does not look at the log, so the removal may be noted before it
    obtain ⟨w2, arr', hadd, hinv, hclock, hpend2⟩ :=
      hinv1.add (k := k) (by rw [hpend, update_self])
        (show w1.time64 k < 2 ^ 63 by rw [htime]; exact hbelow)
    rw [LinkWheel.add_note] at hadd
    obtain ⟨w', hadd', rfl⟩ := map_eq_some_iff.mp hadd
    have htime' : (w1.note (.removed k)).time64 k = t := htime
    rw [htime'] at hinv
    refine ⟨(w'.note (.removed k)).note (.added k t), arr', ?_, hinv, ?_, ?_⟩
    · rw [LinkOp.onWheel, LinkWheel.modify, hrem, bind_some, hadd']
      rfl
    · have hclock2 : w1.SameClock w' := hclock
      show w.SameClock w'
      unfold LinkWheel.SameClock at hclock2 hclock1 ⊢
      omega
    · rw [pending_note, hpend2, hpend]
      exact update_idem ..

theorem LinkWheelInv.calls (hw : LinkWheelInv w arr) {ops : List LinkOp}
    (hops : LinkOp.AllowedAll w.pending ops) (hbelow : ∀ op ∈ ops, op.Below) :
    ∃ w' arr', ops.foldlM LinkOp.onWheel w = some w' ∧ LinkWheelInv w' arr' ∧ w.SameClock w' := by
  induction ops generalizing w arr with
  | nil => exact ⟨w, arr, rfl, hw, rfl, rfl, rfl, rfl⟩
  | cons op ops ih =>
    obtain ⟨w1, arr1, happ, hinv1, hclock1, hpend⟩ := hw.call hops.1 (hbelow op mem_cons_self)
    obtain ⟨w', arr', hrun, hinv, hclock⟩ := ih hinv1 (by rw [hpend]; exact hops.2)
      (fun op hop => hbelow op (mem_cons_of_mem _ hop))
    refine ⟨w', arr', ?_, hinv, ?_⟩
    · rw [foldlM_cons, happ]
      exact hrun
    · unfold LinkWheel.SameClock at hclock hclock1 ⊢
      omega

/-- A callback and the calls that it makes keep `LinkWheelInv`. -/
theorem LinkWheelInv.fire (hw : LinkWheelInv w arr) {curtime64 : ℕ}
    {cb : LinkWheel → ℕ → List LinkOp} (hcb : CallbackAllowed cb) (hk : k ∈ arr w.curidx)
    (ht : w.time64 k < curtime64 + w.granularity) :
    ∃ w' arr', w.fire k curtime64 cb = some w' ∧ LinkWheelInv w' arr' ∧ w.SameClock w' := by
  obtain ⟨h, l, hrem, hinv⟩ := hw.take hk (w.time64 k)
  rw [LinkWheel.setTime_self] at hrem hinv
  have hinv1 := hinv (.fired k (w.time64 k) curtime64) (.inr ⟨_, _, rfl⟩) (by
    intro t c he
    obtain ⟨-, rfl, rfl⟩ := WheelEvent.fired.inj he
    exact ht)
  obtain ⟨hallowed, hbelow⟩ := hcb ((w.setHeap w.curidx h).note (.fired k (w.time64 k) curtime64)) k
  obtain ⟨w', arr', hrun, hinv', hclock⟩ := hinv1.calls hallowed hbelow
  refine ⟨w', arr', ?_, hinv', hclock⟩
  rw [LinkWheel.fire, hrem]
  exact hrun

end Ops

/-! ## Steps of the wheel -/

section Process

variable {w : LinkWheel} {arr : ℕ → List ℕ} {curtime64 : ℕ} {cb : LinkWheel → ℕ → List LinkOp}

theorem nextIdx_eq {size cur : ℕ} (hcur : cur < size) : nextIdx size cur = (cur + 1) % size := by
  unfold nextIdx
  split_ifs with h
  · rw [show cur + 1 = size by omega, Nat.mod_self]
  · rw [Nat.mod_eq_of_lt (by omega)]

theorem LinkWheelInv.not_due (hw : LinkWheelInv w arr) (hnext : w.nextTime64 < 2 ^ 63)
    (hcur : ∀ k ∈ arr w.curidx, w.nextTime64 + w.granularity ≤ w.time64 k) {i k : ℕ}
    (hk : k ∈ arr i) : w.nextTime64 + w.granularity ≤ w.time64 k := by
  by_contra hlt
  have hslot := (hw.slot hnext i k hk).2
  have hzero : (w.time64 k - w.nextTime64) / w.granularity = 0 := Nat.div_eq_of_lt (by
    have := hw.gran_pos
    omega)
  rw [hzero, Nat.add_zero, Nat.mod_eq_of_lt hw.curidx_lt] at hslot
  subst hslot
  exact hlt (hcur k hk)

/-- Moving on to the next slot keeps `LinkWheelInv`. -/
theorem LinkWheelInv.tick (hw : LinkWheelInv w arr) (hnext : w.nextTime64 < 2 ^ 63)
    (hcur : ∀ k ∈ arr w.curidx, w.nextTime64 + w.granularity ≤ w.time64 k) :
    LinkWheelInv w.tick arr ∧ ∀ i k, k ∈ arr i → w.tick.nextTime64 ≤ w.tick.time64 k := by
  have hgran := hw.gran_lt
  have hsum : (w.nextTime64 + w.granularity) % 2 ^ 64 = w.nextTime64 + w.granularity :=
    Nat.mod_eq_of_lt (by omega)
  refine ⟨⟨⟨hw.rep, hw.ordered, hw.unique, hw.idx⟩, hw.size_pos, hw.gran_pos, hw.gran_lt,
    nextIdx_lt hw.size_pos, hw.mem, hw.time, fun _ i k hk => ?_, hw.alternates, hw.fired⟩,
    fun i k hk => ?_⟩
  · obtain ⟨hlt, hslot⟩ := hw.slot hnext i k hk
    have hdue := hw.not_due hnext hcur hk
    refine ⟨hlt, hslot.trans ?_⟩
    -- one slot further on, one slot less to go
    obtain ⟨n, hn⟩ : ∃ n, (w.time64 k - w.nextTime64) / w.granularity = n + 1 := by
      refine Nat.exists_eq_succ_of_ne_zero (Nat.pos_iff_ne_zero.mp (Nat.div_pos ?_ hw.gran_pos))
      omega
    have hless : (w.time64 k - (w.nextTime64 + w.granularity)) / w.granularity = n := by
      rw [Nat.div_eq_sub_div hw.gran_pos (by omega), Nat.add_right_cancel_iff] at hn
      rw [Nat.sub_add_eq, hn]
    change _ = (nextIdx w.size w.curidx + (w.time64 k - (w.nextTime64 + w.granularity) % 2 ^ 64) /
      w.granularity) % w.size
    rw [hsum, hless, hn, nextIdx_eq hw.curidx_lt, Nat.mod_add_mod]
    congr 1
    omega
  · change (w.nextTime64 + w.granularity) % 2 ^ 64 ≤ w.time64 k
    rw [hsum]
    exact hw.not_due hnext hcur hk

/-- What holds after every iteration of a call that does a step: when the loop ends, no timer is
late. -/
def LinkWheel.OnTime (w : LinkWheel) (curtime64 : ℕ) : Prop :=
  ∃ arr, LinkWheelInv w arr ∧ (curtime64 < w.nextTime64 → ∀ i k, k ∈ arr i →
    w.nextTime64 ≤ w.time64 k)

theorem LinkWheelInv.processBody (hw : LinkWheelInv w arr) (hcurtime : curtime64 < 2 ^ 63)
    (hcb : CallbackAllowed cb) (hle : w.nextTime64 ≤ curtime64) :
    ∃ w', w.processBody curtime64 cb = .inl w' ∧ w'.OnTime curtime64 ∧
      w'.granularity = w.granularity := by
  have hgran := hw.gran_lt
  have hsum : (w.nextTime64 + w.granularity) % 2 ^ 64 = w.nextTime64 + w.granularity :=
    Nat.mod_eq_of_lt (by omega)
  have hdrained : (∀ k ∈ arr w.curidx, w.nextTime64 + w.granularity ≤ w.time64 k) →
      w.tick.OnTime curtime64 ∧ w.tick.granularity = w.granularity := by
    intro hcur
    obtain ⟨hinv, hlate⟩ := hw.tick (by omega) hcur
    exact ⟨⟨arr, hinv, fun _ => hlate⟩, rfl⟩
  unfold LinkWheel.processBody
  rw [if_pos hle, hsum]
  have hroot := (hw.rep w.curidx).root
  cases hlink : (w.heap w.curidx).nextExpiryTimer with
  | none =>
    refine ⟨_, rfl, hdrained fun k hk => ?_⟩
    have hnil := hroot.symm.trans hlink
    rw [getElem?_eq_none_iff, Nat.le_zero, length_eq_zero_iff] at hnil
    rw [hnil] at hk
    simp at hk
  | some link =>
    by_cases hdue : w.time64 link ≥ w.nextTime64 + w.granularity
    · simp only [if_pos hdue]
      refine ⟨_, rfl, hdrained fun k hk => ?_⟩
      have := (hw.ordered w.curidx).root_le (hw.rep w.curidx) hlink hk
      exact hdue.trans this
    · simp only [if_neg hdue]
      have hmem := (hw.rep w.curidx).linkedOn.root_mem link hlink
      have ht : w.time64 link < curtime64 + w.granularity := by omega
      obtain ⟨w', arr', hfire, hinv, hclock⟩ := hw.fire hcb hmem ht
      rw [hfire]
      refine ⟨w', rfl, ⟨arr', hinv, fun hlt => ?_⟩, hclock.2.1⟩
      have := hclock.2.2.2
      omega

theorem LinkWheelInv.process (hw : LinkWheelInv w arr) (hcurtime : curtime64 < 2 ^ 63)
    (hcb : CallbackAllowed cb) {r : Option LinkWheel} (hr : w.ProcessReturns curtime64 cb r) :
    ∃ w' arr', r = some w' ∧ LinkWheelInv w' arr' ∧ w'.granularity = w.granularity ∧
      (w.nextTime64 ≤ curtime64 → ∀ i k, k ∈ arr' i → w'.nextTime64 ≤ w'.time64 k) := by
  obtain ⟨w', hsteps, hret⟩ := returns_iff.mp hr
  have hinv := hsteps.invariant (P := fun w' => w'.granularity = w.granularity ∧
      ∃ arr', LinkWheelInv w' arr' ∧ (w.nextTime64 ≤ curtime64 → curtime64 < w'.nextTime64 →
        ∀ i k, k ∈ arr' i → w'.nextTime64 ≤ w'.time64 k))
    (fun w1 w2 h₁ hstep => by
      obtain ⟨hgran, arr1, hinv1, -⟩ := h₁
      by_cases hle : w1.nextTime64 ≤ curtime64
      · obtain ⟨w2', hstep', ⟨arr2, hinv2, hlate⟩, hgran'⟩ := hinv1.processBody hcurtime hcb hle
        obtain rfl := Sum.inl.inj (hstep.symm.trans hstep')
        exact ⟨hgran'.trans hgran, arr2, hinv2, fun _ => hlate⟩
      · simp only [LinkWheel.processBody, if_neg hle, reduceCtorEq] at hstep)
    ⟨rfl, arr, hw, fun h1 h2 => by omega⟩
  obtain ⟨hgran, arr', hinv', hlate⟩ := hinv
  by_cases hle : w'.nextTime64 ≤ curtime64
  · obtain ⟨w'', hstep, -⟩ := hinv'.processBody hcurtime hcb hle
    simp [hstep] at hret
  · simp only [LinkWheel.processBody, if_neg hle, Sum.inr.injEq] at hret
    exact ⟨w', arr', hret.symm, hinv', hgran, fun h => hlate h (by omega)⟩

theorem LinkWheelInv.init (w : LinkWheel) {granularity size nextTime64 : ℕ} (hg : 1 ≤ granularity)
    (hg' : granularity < 2 ^ 32) (hsize : 1 ≤ size) :
    LinkWheelInv (w.init granularity size nextTime64) fun _ => [] := by
  refine ⟨⟨fun i => ⟨nodup_nil, rfl, rfl, ?_, ?_, ?_⟩, ?_, ?_, ?_⟩, hsize, hg, hg', hsize, ?_,
    ?_, ?_, .nil, ?_⟩
  · simp
  · simp
  · simp
  · intro i c p hc
    simp at hc
  · simp
  · simp
  · simp [LinkWheel.pending, LinkWheel.init]
  · simp [LinkWheel.pending, LinkWheel.init]
  · simp
  · simp [LinkWheel.init]

theorem LinkWheelRun.inv {w0 : LinkWheel} {arr0 : ℕ → List ℕ} (h0 : LinkWheelInv w0 arr0)
    (hrun : LinkWheelRun w0 w) : w.granularity = w0.granularity ∧ ∃ arr, LinkWheelInv w arr := by
  induction hrun with
  | init => exact ⟨rfl, arr0, h0⟩
  | call _ hop hbelow happ ih =>
    obtain ⟨hgran, arr, hw⟩ := ih
    obtain ⟨w', arr', happ', hw', hclock, -⟩ := hw.call hop hbelow
    obtain rfl := some.inj (happ.symm.trans happ')
    exact ⟨hclock.2.1.trans hgran, arr', hw'⟩
  | process _ hcurtime hcb hret ih =>
    obtain ⟨hgran, arr, hw⟩ := ih
    obtain ⟨w', arr', hr, hw', hgran', -⟩ := hw.process hcurtime hcb hret
    obtain rfl := some.inj hr
    exact ⟨hgran'.trans hgran, arr', hw'⟩

end Process

/-- After any sequence of calls, a call of `timer_linkwheel_process` that returns has not aborted.
If its time is at least the `next_time64` it has found, no timer is pending whose time is before the
new `next_time64`. Every timer that has fired, in this call or before, had a time below the current
time plus one granularity, and all the time a timer had not been fired or removed more often than
added. The slots hold the pending timers. -/
theorem linkwheel_correct (w0 : LinkWheel) {granularity size next : ℕ} (hg : 1 ≤ granularity)
    (hg' : granularity < 2 ^ 32) (hsize : 1 ≤ size) {w : LinkWheel}
    (hrun : LinkWheelRun (w0.init granularity size next) w) {curtime64 : ℕ}
    (hcurtime : curtime64 < 2 ^ 63) {cb : LinkWheel → ℕ → List LinkOp} (hcb : CallbackAllowed cb)
    {r : Option LinkWheel} (hr : w.ProcessReturns curtime64 cb r) :
    ∃ w', r = some w' ∧
      (w.nextTime64 ≤ curtime64 → ∀ k t, w'.pending k = some t → w'.nextTime64 ≤ t) ∧
      (∀ k t c, .fired k t c ∈ w'.log → t < c + granularity) ∧
      (∀ l k, l <+: w'.log →
        l.countP (·.Takes k) ≤ l.countP (·.Adds k) ∧ l.countP (·.Adds k) ≤ l.countP (·.Takes k) + 1)
          ∧
      ∃ arr, w'.Shape arr ∧ (∀ k, (∃ i, k ∈ arr i) ↔ w'.pending k ≠ none) ∧
        ∀ k t, w'.pending k = some t → w'.time64 k = t := by
  obtain ⟨hgran, arr, hw⟩ := hrun.inv (LinkWheelInv.init w0 hg hg' hsize)
  obtain ⟨w', arr', rfl, hw', hgran', hlate⟩ := hw.process hcurtime hcb hr
  refine ⟨w', rfl, fun hle k t hk => ?_, fun k t c hf => ?_, fun l k hl => ?_, arr', hw'.toShape,
    hw'.mem, hw'.time⟩
  · obtain ⟨i, hi⟩ := (hw'.mem k).mpr (by simp [hk])
    have := hlate hle i k hi
    rwa [hw'.time k t hk] at this
  · have := hw'.fired k t c hf
    rwa [hgran', hgran] at this
  · have := hw'.alternates l k hl
    have := Bool.toNat_le (((l.foldl WheelEvent.pending fun _ => none) k).isSome)
    omega

/-- A wheel of four slots of ten units that begins at 10, to which one timer has been added. -/
def oneLinkTimer (t : ℕ) : Option LinkWheel :=
  (LinkOp.add 0 t).onWheel (LinkWheel.init
    ⟨fun _ => 0, fun _ => none, fun _ => none, fun _ => none, fun _ => 0, fun _ => none, fun _ => 0,
      0, 0, 0, 0, []⟩ 10 4 10)

theorem oneLinkTimer_run {t : ℕ} {w : LinkWheel} (ht : t < 2 ^ 63) (h : oneLinkTimer t = some w) :
    LinkWheelRun (LinkWheel.init
      ⟨fun _ => 0, fun _ => none, fun _ => none, fun _ => none, fun _ => 0, fun _ => none,
        fun _ => 0, 0, 0, 0, 0, []⟩ 10 4 10) w := by
  have hallowed : (LinkOp.add 0 t).Allowed fun _ => none := rfl
  exact .call .init hallowed ht h

theorem callbackAllowed_nil : CallbackAllowed fun _ _ => [] := fun _ _ => ⟨trivial, by simp⟩

/-- A timer at 15 fires in a call at 12. -/
theorem linkwheel_correct_fired :
    ∃ w r, oneLinkTimer 15 = some w ∧ w.ProcessReturns 12 (fun _ _ => []) r ∧
      ∃ w', r = some w' ∧ w'.log = [.added 0 15, .fired 0 15 12] ∧ 15 < 12 + 10 := by
  have hsome : ((oneLinkTimer 15).bind fun w =>
    loop (fun w => w.processBody 12 fun _ _ => []) 3 w).map
      (Option.map LinkWheel.log) = some (some [.added 0 15, .fired 0 15 12]) := by
    decide +kernel
  rw [Option.map_eq_some_iff] at hsome
  obtain ⟨r, hr, hlog⟩ := hsome
  obtain ⟨w, hw, hloop⟩ := bind_eq_some_iff.mp hr
  obtain ⟨w', rfl, -, hfired, -⟩ := linkwheel_correct _ (by decide) (by decide) (by decide)
    (oneLinkTimer_run (by decide) hw) (by decide) callbackAllowed_nil ⟨3, hloop⟩
  rw [map_some, some.injEq] at hlog
  refine ⟨w, _, hw, ⟨3, hloop⟩, w', rfl, hlog, hfired 0 15 12 ?_⟩
  rw [hlog]
  simp

/-- A late timer waits for `next_time64`: a timer at 5 is added when this is 10, and a call at 7
does nothing. -/
theorem linkwheel_keeps_late_timer :
    ∃ w, LinkWheelRun (LinkWheel.init
        ⟨fun _ => 0, fun _ => none, fun _ => none, fun _ => none, fun _ => 0, fun _ => none,
          fun _ => 0, 0, 0, 0, 0, []⟩ 10 4 10) w ∧
      CallbackAllowed (fun _ _ => []) ∧ w.ProcessReturns 7 (fun _ _ => []) (some w) ∧
      w.pending 0 = some 5 ∧ 5 < w.nextTime64 := by
  have hsome : (oneLinkTimer 5).map (fun w => (w.pending 0, w.nextTime64)) = some (some 5, 10) := by
    decide +kernel
  rw [map_eq_some_iff] at hsome
  obtain ⟨w, hw, heq⟩ := hsome
  obtain ⟨hpend, hnext⟩ := Prod.mk.inj heq
  refine ⟨w, oneLinkTimer_run (by decide) hw, callbackAllowed_nil, .of_inr ?_, hpend, by omega⟩
  unfold LinkWheel.processBody
  rw [if_neg (by omega)]

end Pptk.Timer
