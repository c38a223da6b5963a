import Mathlib.Logic.Function.Basic
import Pptk.Timer.Slot

/-!
# Timer wheel with rotation counts

Model of `timerwheel/timerwheel.c` and `timerwheel/timerwheel.h`, without locks. Timers are
numbers; a slot is the list of the timers in it, first one first.

A timer is due after a number of steps that its slot and its rotation count give together
(`TimerWheel.ahead`). The invariant is that this number of steps is not too large for its time.

Main results: `wheel_fires_on_time`, `wheel_keeps_late_timer` and `wheel_readds_late`.
-/

namespace Pptk.Timer

open Function List

/-- `struct timer_wheel_task` (timerwheel.h:18-25), without its node and callback. -/
structure WheelTask where
  time64 : ℕ
  rotationCount : ℕ
  idx : ℕ
deriving DecidableEq, Repr

/-- `struct timer_wheel` (timerwheel.h:27-34) and the tasks. -/
structure TimerWheel where
  timers : ℕ → List ℕ
  task : ℕ → WheelTask
  curidx : ℕ
  size : ℕ
  granularity : ℕ
  nextTime64 : ℕ

namespace TimerWheel

/-- `timer_wheel_init` (timerwheel.h:36-83). -/
def init (task : ℕ → WheelTask) (granularity size nextTime64 : ℕ) : TimerWheel :=
  ⟨fun _ => [], task, 0, size, granularity, nextTime64⟩

variable (w : TimerWheel) (k : ℕ)

/-- The assignment of a new time to a timer. -/
def setTime (t : ℕ) : TimerWheel :=
  { w with task := update w.task k { w.task k with time64 := t } }

/-- `timer_wheel_add` (timerwheel.c:7-34). The rotation count has 32 bits. -/
def add : TimerWheel :=
  let diff := wheelDiff (w.task k).time64 w.nextTime64 w.granularity
  let idx := (w.curidx + diff) % w.size
  { w with
    task := update w.task k
      { w.task k with idx := idx, rotationCount := diff / w.size % 2 ^ 32 }
    timers := update w.timers idx (k :: w.timers idx) }

/-- `hash_list_delete` of a timer: it is in one list at most. -/
def delete : TimerWheel := { w with timers := fun i => (w.timers i).erase k }

/-- `timer_wheel_remove` (timerwheel.h:134-152). -/
def remove : TimerWheel := w.delete k

/-- `timer_wheel_modify` (timerwheel.h:154-158). -/
def modify : TimerWheel := (w.remove k).add k

/-- The body of the loop over a slot (timerwheel.h:104-117). The callback may add its own timer
again: `cb` is the time it sets then. -/
def scanTask (cb : TimerWheel → ℕ → Option ℕ) : TimerWheel :=
  if (w.task k).rotationCount > 0 then
    { w with
      task := update w.task k
        { w.task k with rotationCount := (w.task k).rotationCount - 1 } }
  else
    let w := w.delete k
    match cb w k with
    | none => w
    | some t => (w.setTime k t).add k

/-- One iteration of the loop of `timer_wheel_process` (timerwheel.h:94-131). The next node of the
list is read before the callback, which only takes out the current node and puts it at the head of a
list: the nodes that are visited are those of the list as it is found. -/
def tick (cb : TimerWheel → ℕ → Option ℕ) : TimerWheel :=
  let w := (w.timers w.curidx).foldl (fun w k => w.scanTask k cb) w
  { w with
    nextTime64 := (w.nextTime64 + w.granularity) % 2 ^ 64
    curidx := nextIdx w.size w.curidx }

/-- The loop of `timer_wheel_process`, at most `fuel` iterations. -/
def processLoop (cb : TimerWheel → ℕ → Option ℕ) (curtime64 : ℕ) : ℕ → TimerWheel → TimerWheel
  | 0, w => w
  | fuel + 1, w =>
    if curtime64 ≥ w.nextTime64 then processLoop cb curtime64 fuel (w.tick cb) else w

/-- `timer_wheel_process` (timerwheel.h:92-132). So many iterations are enough
(`lt_nextTime64_process`). -/
def process (cb : TimerWheel → ℕ → Option ℕ) (curtime64 : ℕ) : TimerWheel :=
  processLoop cb curtime64 (curtime64 + 1 - w.nextTime64) w

/-- The timers that are pending. -/
def Pending : Prop := ∃ i, k ∈ w.timers i

/-- The number of steps before the one that fires the timer `k` of slot `i`. -/
def ahead (i : ℕ) : ℕ := slotDist w.size w.curidx i + (w.task k).rotationCount * w.size

end TimerWheel

open TimerWheel

/-! ## Runs -/

/-- The calls. A timer gets its time before it is added or modified; `cb` says what the callbacks do
during a call of `timer_wheel_process`. -/
inductive WheelOp
  | add (k t : ℕ)
  | remove (k : ℕ)
  | modify (k t : ℕ)
  | process (curtime64 : ℕ) (cb : TimerWheel → ℕ → Option ℕ)

/-- The wheel after a call. -/
def WheelOp.apply (w : TimerWheel) : WheelOp → TimerWheel
  | .add k t => (w.setTime k t).add k
  | .remove k => w.remove k
  | .modify k t => (w.setTime k t).modify k
  | .process curtime64 cb => w.process cb curtime64

/-- Timers that are added are not pending, and timers that are removed or modified are; times are
below `2^63`. -/
def WheelOp.Allowed (w : TimerWheel) : WheelOp → Prop
  | .add k t => ¬w.Pending k ∧ t < 2 ^ 63
  | .remove k => w.Pending k
  | .modify k t => w.Pending k ∧ t < 2 ^ 63
  | .process curtime64 cb => curtime64 < 2 ^ 63 ∧ ∀ w k t, cb w k = some t → t < 2 ^ 63

/-- The callbacks of a call do not add a timer to the slot that is being scanned. -/
def WheelOp.NotScanned : WheelOp → Prop
  | .process _ cb => ∀ w k t, cb w k = some t → wheelDiff t w.nextTime64 w.granularity % w.size ≠ 0
  | _ => True

/-- The wheel after a sequence of calls. -/
inductive WheelRun (w0 : TimerWheel) : List WheelOp → TimerWheel → Prop
  | nil : WheelRun w0 [] w0
  | snoc {ops : List WheelOp} {op : WheelOp} {w : TimerWheel} : WheelRun w0 ops w → op.Allowed w →
      WheelRun w0 (ops ++ [op]) (op.apply w)

/-! ## Invariant -/

/-- The timer `k` in slot `i` fires in time, unless it is to be fired in the next step. -/
def TimerWheel.Due (w : TimerWheel) (i k : ℕ) : Prop :=
  w.nextTime64 + w.ahead k i * w.granularity ≤ (w.task k).time64 ∨ w.ahead k i = 0

/-- What holds between two calls. Timers that are added when `next_time64` has got to `2^63` may be
anywhere, but they are never processed. -/
structure WheelInv (w : TimerWheel) : Prop where
  size_pos : 0 < w.size
  gran_pos : 0 < w.granularity
  gran_lt : w.granularity < 2 ^ 32
  curidx_lt : w.curidx < w.size
  slot_lt : ∀ i k, k ∈ w.timers i → i < w.size
  nodup : ∀ i, (w.timers i).Nodup
  unique : ∀ i j k, k ∈ w.timers i → k ∈ w.timers j → i = j
  due : w.nextTime64 < 2 ^ 63 → ∀ i k, k ∈ w.timers i → w.Due i k

section Ops

variable {w : TimerWheel} {k : ℕ}

theorem WheelInv.init (task : ℕ → WheelTask) {g size next : ℕ} (hg : 0 < g) (hg' : g < 2 ^ 32)
    (hsize : 0 < size) : WheelInv (TimerWheel.init task g size next) where
  size_pos := hsize
  gran_pos := hg
  gran_lt := hg'
  curidx_lt := hsize
  slot_lt i k h := by simp [TimerWheel.init] at h
  nodup _ := nodup_nil
  unique i j k h := by simp [TimerWheel.init] at h
  due _ i k h := by simp [TimerWheel.init] at h

theorem mem_delete {i j : ℕ} (hw : ∀ i, (w.timers i).Nodup) :
    j ∈ (w.delete k).timers i ↔ j ≠ k ∧ j ∈ w.timers i := (hw i).mem_erase_iff

theorem WheelInv.delete (hw : WheelInv w) (k : ℕ) : WheelInv (w.delete k) where
  size_pos := hw.size_pos
  gran_pos := hw.gran_pos
  gran_lt := hw.gran_lt
  curidx_lt := hw.curidx_lt
  slot_lt i j h := hw.slot_lt i j (mem_of_mem_erase h)
  nodup i := (hw.nodup i).erase k
  unique i i' j h h' := hw.unique i i' j (mem_of_mem_erase h) (mem_of_mem_erase h')
  due hnext i j h := hw.due hnext i j (mem_of_mem_erase h)

theorem not_pending_delete (hw : WheelInv w) (k : ℕ) : ¬(w.delete k).Pending k := by
  rintro ⟨i, hi⟩
  exact ((mem_delete hw.nodup).mp hi).1 rfl

theorem WheelInv.setTime (hw : WheelInv w) (hk : ¬w.Pending k) (t : ℕ) :
    WheelInv (w.setTime k t) where
  size_pos := hw.size_pos
  gran_pos := hw.gran_pos
  gran_lt := hw.gran_lt
  curidx_lt := hw.curidx_lt
  slot_lt := hw.slot_lt
  nodup := hw.nodup
  unique := hw.unique
  due hnext i j h := by
    have hne : j ≠ k := by
      rintro rfl
      exact hk ⟨i, h⟩
    have := hw.due hnext i j h
    simpa only [Due, ahead, TimerWheel.setTime, update_of_ne hne] using this

theorem mem_add {i j : ℕ} : j ∈ (w.add k).timers i ↔
    (j = k ∧ i = (w.curidx + wheelDiff (w.task k).time64 w.nextTime64 w.granularity) % w.size) ∨
      j ∈ w.timers i := by
  simp only [TimerWheel.add]
  by_cases hi : i = (w.curidx + wheelDiff (w.task k).time64 w.nextTime64 w.granularity) % w.size
  · subst hi
    simp
  · simp [hi]

/-- A timer that is added fires in time; the steps up to then are those of its slot, and then whole
rotations. -/
theorem due_add (hcur : w.curidx < w.size) (ht : (w.task k).time64 < 2 ^ 63)
    (hnext : w.nextTime64 < 2 ^ 63) :
    (w.add k).ahead k ((w.curidx + wheelDiff (w.task k).time64 w.nextTime64 w.granularity) % w.size)
      =
        wheelDiff (w.task k).time64 w.nextTime64 w.granularity % w.size +
          wheelDiff (w.task k).time64 w.nextTime64 w.granularity / w.size % 2 ^ 32 * w.size ∧
      (w.add k).Due
        ((w.curidx + wheelDiff (w.task k).time64 w.nextTime64 w.granularity) % w.size) k := by
  generalize hd : wheelDiff (w.task k).time64 w.nextTime64 w.granularity = d
  have heq : (w.add k).ahead k ((w.curidx + d) % w.size) = d % w.size + d / w.size % 2 ^ 32 *
    w.size := by
    simp only [ahead, TimerWheel.add, update_self, hd]
    rw [slotDist_add hcur]
  refine ⟨heq, ?_⟩
  have hle : d % w.size + d / w.size % 2 ^ 32 * w.size ≤ d := by
    have h1 := Nat.mod_le (d / w.size) (2 ^ 32)
    have h2 := Nat.mul_le_mul_right w.size h1
    have h3 := Nat.mod_add_div' d w.size
    omega
  have htask : ((w.add k).task k).time64 = (w.task k).time64 := by simp [TimerWheel.add]
  rw [Due, heq, htask]
  rw [wheelDiff_eq _ ht hnext] at hd
  rcases Nat.eq_zero_or_pos d with hzero | hpos
  · right
    omega
  · left
    have hmul : d * w.granularity ≤ (w.task k).time64 - w.nextTime64 := by
      rw [← hd]
      exact Nat.div_mul_le_self _ _
    have hmono := Nat.mul_le_mul_right w.granularity hle
    have hlt : 0 < d * w.granularity := by
      apply Nat.mul_pos hpos
      by_contra h0
      rw [Nat.eq_zero_of_not_pos h0, Nat.div_zero] at hd
      omega
    change w.nextTime64 + (d % w.size + d / w.size % 2 ^ 32 * w.size) * w.granularity ≤ _
    omega

theorem due_add_of_ne {i j : ℕ} (hne : j ≠ k) : (w.add k).Due i j ↔ w.Due i j := by
  simp only [Due, ahead, TimerWheel.add, update_of_ne hne]

theorem WheelInv.add (hw : WheelInv w) (hk : ¬w.Pending k) (ht : (w.task k).time64 < 2 ^ 63) :
    WheelInv (w.add k) where
  size_pos := hw.size_pos
  gran_pos := hw.gran_pos
  gran_lt := hw.gran_lt
  curidx_lt := hw.curidx_lt
  slot_lt i j h := by
    rcases mem_add.mp h with ⟨-, rfl⟩ | h
    · exact Nat.mod_lt _ hw.size_pos
    · exact hw.slot_lt i j h
  nodup i := by
    simp only [TimerWheel.add]
    by_cases hi : i = (w.curidx + wheelDiff (w.task k).time64 w.nextTime64 w.granularity) % w.size
    · subst hi
      rw [update_self]
      exact nodup_cons.mpr ⟨fun h => hk ⟨_, h⟩, hw.nodup _⟩
    · rw [update_of_ne hi]
      exact hw.nodup i
  unique i i' j h h' := by
    rcases mem_add.mp h with ⟨rfl, hi⟩ | h <;> rcases mem_add.mp h' with ⟨hj, hi'⟩ | h'
    · exact hi.trans hi'.symm
    · exact absurd ⟨i', h'⟩ hk
    · exact absurd ⟨i, hj ▸ h⟩ hk
    · exact hw.unique i i' j h h'
  due hnext i j h := by
    rcases mem_add.mp h with ⟨rfl, rfl⟩ | hold
    · exact (due_add hw.curidx_lt ht hnext).2
    · have hne : j ≠ k := by
        rintro rfl
        exact hk ⟨i, hold⟩
      exact (due_add_of_ne hne).mpr (hw.due hnext i j hold)

end Ops

/-! ## One step -/

/-- After the step that is under way, the timer `k` in slot `i` fires in time. -/
def TimerWheel.DueNext (w : TimerWheel) (i k : ℕ) : Prop :=
  w.nextTime64 + w.granularity + (slotDist w.size (nextIdx w.size w.curidx) i +
    (w.task k).rotationCount * w.size) * w.granularity ≤ (w.task k).time64

/-- What holds while the current slot is scanned, with the timers `rest` still to be visited. -/
structure ScanInv (w : TimerWheel) (rest : List ℕ) : Prop extends WheelInv w where
  next_lt : w.nextTime64 < 2 ^ 63
  rest_nodup : rest.Nodup
  rest_mem : ∀ k ∈ rest, k ∈ w.timers w.curidx
  dueNext : ∀ i k, k ∈ w.timers i → k ∉ rest → w.DueNext i k

section Scan

variable {w : TimerWheel} {k : ℕ} {rest : List ℕ} {cb : TimerWheel → ℕ → Option ℕ}

theorem dueNext_of_due (hw : WheelInv w) {i : ℕ} (hi : i < w.size) (hne : i ≠ w.curidx)
    (h : w.Due i k) : w.DueNext i k := by
  have hsucc := slotDist_succ hw.curidx_lt hi hne
  unfold Due ahead at h
  rw [hsucc] at h
  rcases h with h | h
  · unfold DueNext
    have hmul : (slotDist w.size (nextIdx w.size w.curidx) i + 1 +
        (w.task k).rotationCount * w.size) * w.granularity =
        (slotDist w.size (nextIdx w.size w.curidx) i + (w.task k).rotationCount * w.size) *
          w.granularity + w.granularity := by ring
    omega
  · omega

theorem dueNext_of_rotation (hw : WheelInv w) {n : ℕ} (hrot : (w.task k).rotationCount = n + 1)
    (h : w.Due w.curidx k) :
    w.nextTime64 + w.granularity + (slotDist w.size (nextIdx w.size w.curidx) w.curidx + n * w.size)
      *
      w.granularity ≤ (w.task k).time64 := by
  have hlast := slotDist_nextIdx hw.curidx_lt
  unfold Due ahead at h
  rw [slotDist_self, hrot, Nat.zero_add] at h
  rcases h with h | h
  · have hmul : (n + 1) * w.size * w.granularity =
        (slotDist w.size (nextIdx w.size w.curidx) w.curidx + n * w.size) * w.granularity +
          w.granularity := by
      rw [show (n + 1) * w.size = n * w.size + (slotDist w.size (nextIdx w.size w.curidx) w.curidx +
        1) by
        rw [hlast]; ring]
      ring
    omega
  · have := Nat.mul_pos (show 0 < n + 1 by omega) hw.size_pos
    omega

theorem ScanInv.start (hw : WheelInv w) (hnext : w.nextTime64 < 2 ^ 63) :
    ScanInv w (w.timers w.curidx) where
  toWheelInv := hw
  next_lt := hnext
  rest_nodup := hw.nodup _
  rest_mem _ h := h
  dueNext i k hk hrest := by
    have hne : i ≠ w.curidx := by
      rintro rfl
      exact hrest hk
    exact dueNext_of_due hw (hw.slot_lt i k hk) hne (hw.due hnext i k hk)

theorem ScanInv.lower (h : ScanInv w (k :: rest)) {n : ℕ}
    (hrot : (w.task k).rotationCount = n + 1) :
    ScanInv { w with task := update w.task k { w.task k with rotationCount := n } }
      rest := by
  have hk := h.rest_mem k mem_cons_self
  obtain ⟨hnot, hnodup⟩ := nodup_cons.mp h.rest_nodup
  have hother : ∀ j, j ≠ k → update w.task k { w.task k with rotationCount := n } j =
    w.task j := fun j hj => update_of_ne hj _ _
  have hkdue : ∀ i, k ∈ w.timers i → i = w.curidx := fun i hi => h.unique i w.curidx k hi hk
  have hlow := dueNext_of_rotation h.toWheelInv hrot (h.due h.next_lt _ _ hk)
  refine ⟨⟨h.size_pos, h.gran_pos, h.gran_lt, h.curidx_lt, h.slot_lt, h.nodup, h.unique, ?_⟩,
    h.next_lt, hnodup, fun j hj => h.rest_mem j (mem_cons_of_mem _ hj), ?_⟩
  · intro hnext i j hj
    by_cases hjk : j = k
    · subst hjk
      obtain rfl := hkdue i hj
      have hdue := h.due hnext _ _ hj
      left
      unfold Due ahead at hdue
      rw [slotDist_self, hrot, Nat.zero_add] at hdue
      simp only [ahead, update_self, slotDist_self, Nat.zero_add]
      have hle : n * w.size * w.granularity ≤ (n + 1) * w.size * w.granularity :=
        Nat.mul_le_mul_right _ (Nat.mul_le_mul_right _ (Nat.le_succ n))
      rcases hdue with hdue | hdue
      · omega
      · have := Nat.mul_pos (show 0 < n + 1 by omega) h.size_pos
        omega
    · have := h.due hnext i j hj
      simpa only [Due, ahead, hother j hjk] using this
  · intro i j hj hrest
    by_cases hjk : j = k
    · subst hjk
      obtain rfl := hkdue i hj
      simpa only [DueNext, update_self] using hlow
    · have := h.dueNext i j hj (by simp [hjk, hrest])
      simpa only [DueNext, hother j hjk] using this

theorem ScanInv.fire (h : ScanInv w (k :: rest)) : ScanInv (w.delete k) rest where
  toWheelInv := h.toWheelInv.delete k
  next_lt := h.next_lt
  rest_nodup := (nodup_cons.mp h.rest_nodup).2
  rest_mem j hj := by
    refine (mem_delete h.nodup).mpr ⟨?_, h.rest_mem j (mem_cons_of_mem _ hj)⟩
    rintro rfl
    exact (nodup_cons.mp h.rest_nodup).1 hj
  dueNext i j hj hrest := by
    obtain ⟨hne, hj⟩ := (mem_delete h.nodup).mp hj
    exact h.dueNext i j hj (by simp [hne, hrest])

theorem ScanInv.readd (h : ScanInv w rest) (hk : ¬w.Pending k) {t : ℕ} (ht : t < 2 ^ 63)
    (hslot : wheelDiff t w.nextTime64 w.granularity % w.size ≠ 0) :
    ScanInv ((w.setTime k t).add k) rest := by
  have hset := h.toWheelInv.setTime hk t
  have htime : ((w.setTime k t).task k).time64 = t := by simp [TimerWheel.setTime]
  have hadd := hset.add hk (by rw [htime]; exact ht)
  refine ⟨hadd, h.next_lt, h.rest_nodup, fun j hj => mem_add.mpr (.inr (h.rest_mem j hj)), ?_⟩
  intro i j hj hrest
  rcases mem_add.mp hj with ⟨rfl, hi⟩ | hold
  · -- the slot is not the current one
    have hne : i ≠ w.curidx := by
      intro heq
      have hdist := slotDist_add h.curidx_lt (wheelDiff t w.nextTime64 w.granularity)
      rw [htime] at hi
      change i = (w.curidx + wheelDiff t w.nextTime64 w.granularity) % w.size at hi
      rw [← hi, heq, slotDist_self] at hdist
      exact hslot hdist.symm
    exact dueNext_of_due hadd (hadd.slot_lt i j hj) hne (hadd.due h.next_lt i j hj)
  · have hne : j ≠ k := by
      rintro rfl
      exact hk ⟨i, hold⟩
    have := h.dueNext i j hold hrest
    simpa only [DueNext, TimerWheel.add, TimerWheel.setTime, update_of_ne hne] using this

theorem ScanInv.scanTask (h : ScanInv w (k :: rest))
    (hcb : ∀ w k t, cb w k = some t →
      t < 2 ^ 63 ∧ wheelDiff t w.nextTime64 w.granularity % w.size ≠ 0) :
    ScanInv (w.scanTask k cb) rest := by
  unfold TimerWheel.scanTask
  split_ifs with hrot
  · obtain ⟨n, hn⟩ := Nat.exists_eq_succ_of_ne_zero (Nat.pos_iff_ne_zero.mp hrot)
    rw [hn, Nat.succ_sub_one]
    exact h.lower hn
  · cases hc : cb (w.delete k) k with
    | none => simpa only [hc] using h.fire
    | some t =>
      obtain ⟨ht, hslot⟩ := hcb _ _ _ hc
      simpa only [hc] using h.fire.readd (not_pending_delete h.toWheelInv k) ht hslot

theorem ScanInv.scan (h : ScanInv w rest)
    (hcb : ∀ w k t, cb w k = some t →
      t < 2 ^ 63 ∧ wheelDiff t w.nextTime64 w.granularity % w.size ≠ 0) :
    ScanInv (rest.foldl (fun w k => w.scanTask k cb) w) [] := by
  induction rest generalizing w with
  | nil => exact h
  | cons k rest ih => exact ih (h.scanTask hcb)

@[simp] theorem scanTask_nextTime64 : (w.scanTask k cb).nextTime64 = w.nextTime64 := by
  unfold TimerWheel.scanTask
  split_ifs
  · rfl
  · simp only
    cases cb (w.delete k) k <;> rfl

@[simp] theorem scanTask_granularity : (w.scanTask k cb).granularity = w.granularity := by
  unfold TimerWheel.scanTask
  split_ifs
  · rfl
  · simp only
    cases cb (w.delete k) k <;> rfl

theorem scan_nextTime64 (rest : List ℕ) :
    (rest.foldl (fun w k => w.scanTask k cb) w).nextTime64 = w.nextTime64 ∧
      (rest.foldl (fun w k => w.scanTask k cb) w).granularity = w.granularity := by
  induction rest generalizing w with
  | nil => exact ⟨rfl, rfl⟩
  | cons k rest ih =>
    obtain ⟨h1, h2⟩ := ih (w := w.scanTask k cb)
    exact ⟨h1.trans scanTask_nextTime64, h2.trans scanTask_granularity⟩

/-- After a step no timer has a time before the new `next_time64`. -/
theorem WheelInv.tick (hw : WheelInv w) (hnext : w.nextTime64 < 2 ^ 63)
    (hcb : ∀ w k t, cb w k = some t →
      t < 2 ^ 63 ∧ wheelDiff t w.nextTime64 w.granularity % w.size ≠ 0) :
    WheelInv (w.tick cb) ∧ (w.tick cb).nextTime64 = w.nextTime64 + w.granularity ∧
      (w.tick cb).granularity = w.granularity ∧
      ∀ i k, k ∈ (w.tick cb).timers i → (w.tick cb).nextTime64 ≤ ((w.tick cb).task k).time64 := by
  have hscan := (ScanInv.start hw hnext).scan hcb
  unfold TimerWheel.tick
  simp only
  have hkeep : ((w.timers w.curidx).foldl (fun w k => w.scanTask k cb) w).nextTime64 =
    w.nextTime64 ∧
      ((w.timers w.curidx).foldl (fun w k => w.scanTask k cb) w).granularity = w.granularity :=
    scan_nextTime64 _
  generalize (w.timers w.curidx).foldl (fun w k => w.scanTask k cb) w = w' at hscan hkeep
  obtain ⟨hn, hg⟩ := hkeep
  have hlt := hscan.gran_lt
  have hmod : (w'.nextTime64 + w'.granularity) % 2 ^ 64 = w'.nextTime64 + w'.granularity :=
    Nat.mod_eq_of_lt (by have := hscan.next_lt; omega)
  rw [hmod]
  refine ⟨⟨hscan.size_pos, hscan.gran_pos, hscan.gran_lt, nextIdx_lt hscan.size_pos, hscan.slot_lt,
    hscan.nodup, hscan.unique, ?_⟩, by rw [hn, hg], hg, ?_⟩
  · intro _ i k hk
    left
    exact hscan.dueNext i k hk not_mem_nil
  · intro i k hk
    have := hscan.dueNext i k hk not_mem_nil
    unfold DueNext at this
    exact (Nat.le_add_right _ _).trans this

end Scan

/-! ## Whole calls and runs -/

section Process

variable {w : TimerWheel} {cb : TimerWheel → ℕ → Option ℕ} {cur : ℕ}

/-- The loop ends with `next_time64` behind the current time. If there has been a step, no timer is
late. -/
theorem WheelInv.processLoop (hcur : cur < 2 ^ 63)
    (hcb : ∀ w k t, cb w k = some t →
      t < 2 ^ 63 ∧ wheelDiff t w.nextTime64 w.granularity % w.size ≠ 0) {fuel : ℕ} (hw : WheelInv w)
    (hfuel : cur + 1 - w.nextTime64 ≤ fuel) :
    WheelInv (processLoop cb cur fuel w) ∧ cur < (processLoop cb cur fuel w).nextTime64 ∧
      ((w.nextTime64 ≤ cur ∨ ∀ i k, k ∈ w.timers i → w.nextTime64 ≤ (w.task k).time64) →
        ∀ i k, k ∈ (processLoop cb cur fuel w).timers i →
          (processLoop cb cur fuel w).nextTime64 ≤
            ((processLoop cb cur fuel w).task k).time64) := by
  induction fuel generalizing w with
  | zero =>
    refine ⟨hw, by simp only [TimerWheel.processLoop]; omega, ?_⟩
    rintro (h | h)
    · omega
    · exact h
  | succ fuel ih =>
    unfold TimerWheel.processLoop
    split_ifs with hdo
    · obtain ⟨hw', hnext, -, hlate⟩ := hw.tick (by omega) hcb
      have hpos := hw.gran_pos
      obtain ⟨h1, h2, h3⟩ := ih hw' (by omega)
      exact ⟨h1, h2, fun _ => h3 (.inr hlate)⟩
    · refine ⟨hw, by omega, ?_⟩
      rintro (h | h)
      · omega
      · exact h

theorem WheelInv.apply (hw : WheelInv w) {op : WheelOp} (h : op.Allowed w) (hscan : op.NotScanned) :
    WheelInv (op.apply w) := by
  cases op with
  | add k t => exact (hw.setTime h.1 t).add h.1 (by simpa [TimerWheel.setTime] using h.2)
  | remove k => exact hw.delete k
  | modify k t =>
    -- the timer is taken out with its new time, which no other timer depends on
    have hnot := not_pending_delete hw k
    exact ((hw.delete k).setTime hnot t).add hnot (by simpa [TimerWheel.setTime] using h.2)
  | process cur cb =>
    exact (hw.processLoop h.1 (fun w k t hc => ⟨h.2 w k t hc, hscan w k t hc⟩) le_rfl).1

theorem WheelRun.inv {w0 : TimerWheel} {ops : List WheelOp} (hrun : WheelRun w0 ops w)
    (h0 : WheelInv w0) (hscan : ∀ op ∈ ops, op.NotScanned) : WheelInv w := by
  induction hrun with
  | nil => exact h0
  | snoc _ hallowed ih =>
    refine (ih fun op hop => hscan op (mem_append_left _ hop)).apply hallowed ?_
    exact hscan _ (mem_append_right _ mem_cons_self)

end Process

/-- After any sequence of calls whose callbacks do not add to the slot being scanned, a call of
`timer_wheel_process` with a time that `next_time64` has not passed leaves no timer pending whose
time is before the new `next_time64`. -/
theorem wheel_fires_on_time {task : ℕ → WheelTask} {granularity size next : ℕ}
    (hg : 1 ≤ granularity) (hg' : granularity < 2 ^ 32) (hsize : 1 ≤ size) {ops : List WheelOp}
    {w : TimerWheel} (hrun : WheelRun (TimerWheel.init task granularity size next) ops w)
    (hscan : ∀ op ∈ ops, op.NotScanned) {curtime64 : ℕ} {cb : TimerWheel → ℕ → Option ℕ}
    (hallowed : (WheelOp.process curtime64 cb).Allowed w)
    (hscan' : (WheelOp.process curtime64 cb).NotScanned) (hstep : w.nextTime64 ≤ curtime64) {k : ℕ}
    (hk : (w.process cb curtime64).Pending k) :
    (w.process cb curtime64).nextTime64 ≤ ((w.process cb curtime64).task k).time64 := by
  obtain ⟨i, hi⟩ := hk
  have hw := hrun.inv (WheelInv.init task hg hg' hsize) hscan
  have hcb := fun w k t hc => And.intro (hallowed.2 w k t hc) (hscan' w k t hc)
  exact (hw.processLoop hallowed.1 hcb le_rfl).2.2 (.inl hstep) i k hi

/-- A wheel of 4 slots with one timer that has the time `t`, and `next_time64` at 10. -/
def oneTimer (t : ℕ) : TimerWheel :=
  WheelOp.apply (TimerWheel.init (fun _ => ⟨0, 0, 0⟩) 10 4 10) (.add 0 t)

theorem oneTimer_run {t : ℕ} (ht : t < 2 ^ 63) :
    WheelRun (TimerWheel.init (fun _ => ⟨0, 0, 0⟩) 10 4 10) [.add 0 t] (oneTimer t) := by
  have hallowed : (WheelOp.add 0 t).Allowed (TimerWheel.init (fun _ => ⟨0, 0, 0⟩) 10 4 10) :=
    ⟨fun ⟨_, h⟩ => by simp [TimerWheel.init] at h, ht⟩
  exact WheelRun.nil.snoc hallowed

/-- A timer at 25 is still pending after a call at 12, which brings `next_time64` to 20. -/
theorem wheel_fires_on_time_pending :
    ((oneTimer 25).process (fun _ _ => none) 12).Pending 0 ∧
      ((oneTimer 25).process (fun _ _ => none) 12).nextTime64 ≤
        (((oneTimer 25).process (fun _ _ => none) 12).task 0).time64 := by
  have hpending : ((oneTimer 25).process (fun _ _ => none) 12).Pending 0 := ⟨1, by decide +kernel⟩
  exact ⟨hpending, wheel_fires_on_time (by decide) (by decide) (by decide)
    (oneTimer_run (by decide))
    (by simp [WheelOp.NotScanned]) ⟨by decide, by simp⟩ (by simp [WheelOp.NotScanned]) (by decide)
    hpending⟩

/-- A late timer waits for `next_time64`: a timer at 5 is added when this is 10, and a call at 7
does nothing. -/
theorem wheel_keeps_late_timer :
    ∃ w, WheelRun (TimerWheel.init (fun _ => ⟨0, 0, 0⟩) 10 4 10) [.add 0 5] w ∧
      (WheelOp.process 7 fun _ _ => none).Allowed w ∧
      (w.process (fun _ _ => none) 7).Pending 0 ∧
      ((w.process (fun _ _ => none) 7).task 0).time64 <
        (w.process (fun _ _ => none) 7).nextTime64 :=
  ⟨oneTimer 5, oneTimer_run (by decide), ⟨by decide, by simp⟩,
    ⟨0, by decide +kernel⟩, by decide +kernel⟩

/-- A callback that adds its timer again to the slot being scanned gets it one rotation too late:
the timer fires at 10 and sets its time to 15, and `next_time64` is then 20. -/
theorem wheel_readds_late :
    ((oneTimer 10).process (fun _ _ => some 15) 10).Pending 0 ∧
      (((oneTimer 10).process (fun _ _ => some 15) 10).task 0).time64 <
        ((oneTimer 10).process (fun _ _ => some 15) 10).nextTime64 :=
  ⟨⟨0, by decide +kernel⟩, by decide +kernel⟩

end Pptk.Timer
