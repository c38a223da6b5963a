import Pptk.Lib.Machine
import Pptk.Lib.Scatter

/-!
# Caching allocators

Model of the three allocators under `alloc` that keep blocks of one size, `asalloc`, `llalloc` and
`rballoc`. They differ in how a cache is kept, which is a parameter here, and have the same
functions otherwise: a thread allocates and frees blocks through a local cache of its own, and the
local caches share a global one with a lock. A step is at most one iteration of a loop.

Main result: `AllocInv.step`.
-/

namespace Pptk.Alloc

open Lib Function List Option

/-! ## Model -/

/-- How a cache is kept. -/
structure CacheKind (β σ : Type*) where
  empty : σ → Bool
  full : σ → Bool
  size : σ → ℕ
  capacity : σ → ℕ
  take : σ → β × σ
  put : σ → β → σ

/-- Where a thread is in `*_alloc_mt` and `*_free_mt`: in no call, in the loop of `*_alloc_fill`,
after it, in the first loop of `*_alloc_halve`, and in the second one. The last two have the block
to be freed. -/
inductive AllocPc (β : Type*)
  | idle
  | filling
  | filled
  | halving (b : β)
  | spilling (b : β)

/-- The block that a call is about to put in a cache. -/
def AllocPc.block {β : Type*} : AllocPc β → List β
  | .halving b => [b]
  | .spilling b => [b]
  | _ => []

/-- The caches and threads. The threads are named by their local caches. `hdr` is the size that is
stored in front of a block, which is also the size that has been asked of `malloc`, and `live` says
which blocks `malloc` has given out and not got back. -/
structure AllocState (Λ β σ : Type*) where
  loc : Λ → σ
  glob : σ
  nativeSize : ℕ
  pc : Λ → AllocPc β
  lock : Option Λ
  held : List β
  hdr : β → ℕ
  live : β → Bool

/-- The calls and the steps in them. -/
inductive AllocAction (Λ β : Type*)
  | alloc (l : Λ) (size : ℕ) (m : Option β)
  | fill (l : Λ)
  | allocRest (l : Λ) (m : Option β)
  | free (l : Λ) (b : β)
  | halve (l : Λ)
  | spill (l : Λ)

namespace AllocState

variable {Λ β σ : Type*} [DecidableEq Λ] [DecidableEq β] (K : CacheKind β σ)

def setLoc (s : AllocState Λ β σ) (l : Λ) (c : σ) : AllocState Λ β σ :=
  { s with loc := update s.loc l c }

def setGlob (s : AllocState Λ β σ) (c : σ) : AllocState Λ β σ := { s with glob := c }

def setPc (s : AllocState Λ β σ) (l : Λ) (p : AllocPc β) : AllocState Λ β σ :=
  { s with pc := update s.pc l p }

def setLock (s : AllocState Λ β σ) (o : Option Λ) : AllocState Λ β σ := { s with lock := o }

def setHeld (s : AllocState Λ β σ) (bs : List β) : AllocState Λ β σ := { s with held := bs }

/-- `malloc` and the size in front of the block. If it fails, `NULL` is returned; otherwise it gives
a block that it has not given out. -/
def malloc (s : AllocState Λ β σ) (size : ℕ) : Option β → Option (AllocState Λ β σ)
  | none => some s
  | some b =>
    if s.live b then none
    else some { s with
      live := update s.live b true, hdr := update s.hdr b size, held := b :: s.held }

/-- `free`. -/
def mfree (s : AllocState Λ β σ) (b : β) :
    AllocState Λ β σ := { s with live := update s.live b false }

/-- A block of the local cache is returned to the caller (asalloc.h:73-75, llalloc.h:74-77,
rballoc.h:121-127). -/
def takeLocal (s : AllocState Λ β σ) (l : Λ) : AllocState Λ β σ :=
  (s.setLoc l (K.take (s.loc l)).2).setHeld ((K.take (s.loc l)).1 :: s.held)

/-- `as_alloc_mt` (asalloc.h:53-84), `ll_alloc_mt` (llalloc.h:54-86) and `rb_alloc_mt`
(rballoc.h:101-136) up to the lock. -/
def alloc (s : AllocState Λ β σ) (l : Λ) (size : ℕ) (m : Option β) : Option (AllocState Λ β σ) :=
  match s.pc l with
  | .idle =>
    if size > s.nativeSize then s.malloc size m
    else if K.empty (s.loc l) then
      if s.lock.isSome then none else some ((s.setLock (some l)).setPc l .filling)
    else some (s.takeLocal K l)
  | _ => none

/-- An iteration of the loop of `as_alloc_fill` (asalloc.c:145-161), `ll_alloc_fill`
(llalloc.c:136-155) and `rb_alloc_fill` (rballoc.c:173-198), or the end of it. -/
def fill (s : AllocState Λ β σ) (l : Λ) : Option (AllocState Λ β σ) :=
  match s.pc l with
  | .filling =>
    if K.size (s.loc l) < K.capacity (s.loc l) / 2 ∧ K.empty s.glob = false then
      some ((s.setGlob (K.take s.glob).2).setLoc l (K.put (s.loc l) (K.take s.glob).1))
    else some ((s.setLock none).setPc l .filled)
  | _ => none

/-- The rest of `*_alloc_mt`. -/
def allocRest (s : AllocState Λ β σ) (l : Λ) (m : Option β) : Option (AllocState Λ β σ) :=
  match s.pc l with
  | .filled =>
    if K.empty (s.loc l) then (s.setPc l .idle).malloc s.nativeSize m
      else some ((s.setPc l .idle).takeLocal K l)
  | _ => none

/-- `as_free_mt` (asalloc.h:86-106), `ll_free_mt` (llalloc.h:88-111) and `rb_free_mt`
(rballoc.h:138-162) up to the lock, for a block that the caller holds. -/
def free (s : AllocState Λ β σ) (l : Λ) (b : β) : Option (AllocState Λ β σ) :=
  match s.pc l with
  | .idle =>
    if b ∈ s.held then
      if s.hdr b ≠ s.nativeSize then some ((s.setHeld (s.held.erase b)).mfree b)
      else if K.full (s.loc l) then
        if s.lock.isSome then none
        else some (((s.setLock (some l)).setHeld (s.held.erase b)).setPc l (.halving b))
      else some ((s.setHeld (s.held.erase b)).setLoc l (K.put (s.loc l) b))
    else none
  | _ => none

/-- An iteration of the first loop of `as_alloc_halve` (asalloc.c:163-185), `ll_alloc_halve`
(llalloc.c:157-183) and `rb_alloc_halve` (rballoc.c:200-234), or the end of it. -/
def halve (s : AllocState Λ β σ) (l : Λ) : Option (AllocState Λ β σ) :=
  match s.pc l with
  | .halving b =>
    if K.size (s.loc l) > K.capacity (s.loc l) / 2 ∧ K.full s.glob = false then
      some ((s.setLoc l (K.take (s.loc l)).2).setGlob (K.put s.glob (K.take (s.loc l)).1))
    else some ((s.setLock none).setPc l (.spilling b))
  | _ => none

/-- An iteration of the second loop of `*_alloc_halve`, or the end of it and of `*_free_mt`. -/
def spill (s : AllocState Λ β σ) (l : Λ) : Option (AllocState Λ β σ) :=
  match s.pc l with
  | .spilling b =>
    if K.size (s.loc l) > K.capacity (s.loc l) / 2 then
      some ((s.setLoc l (K.take (s.loc l)).2).mfree (K.take (s.loc l)).1)
    else some ((s.setPc l .idle).setLoc l (K.put (s.loc l) b))
  | _ => none

def step (s : AllocState Λ β σ) : AllocAction Λ β → Option (AllocState Λ β σ)
  | .alloc l size m => s.alloc K l size m
  | .fill l => s.fill K l
  | .allocRest l m => s.allocRest K l m
  | .free l b => s.free K l b
  | .halve l => s.halve K l
  | .spill l => s.spill K l

end AllocState

/-- The local cache that an action is about. -/
def AllocAction.via {Λ β : Type*} : AllocAction Λ β → Λ
  | .alloc l _ _ => l
  | .fill l => l
  | .allocRest l _ => l
  | .free l _ => l
  | .halve l => l
  | .spill l => l

section Frame

variable {Λ β σ : Type*} [DecidableEq Λ] [DecidableEq β] {K : CacheKind β σ}
  {s s' : AllocState Λ β σ} {l l' : Λ}

omit [DecidableEq Λ] in
theorem malloc_frame {size : ℕ} {m : Option β} (h : s.malloc size m = some s') :
    s'.loc = s.loc ∧ s'.pc = s.pc := by
  cases m with
  | none =>
    obtain rfl := some.inj h
    exact ⟨rfl, rfl⟩
  | some b =>
    simp only [AllocState.malloc] at h
    split_ifs at h
    obtain rfl := some.inj h
    exact ⟨rfl, rfl⟩

omit [DecidableEq β] in
theorem setLoc_loc_of_ne (c : σ) (h : l' ≠ l) : (s.setLoc l c).loc l' = s.loc l' := by
  show update s.loc l c l' = s.loc l'
  exact update_of_ne h c s.loc

omit [DecidableEq β] in
theorem setPc_pc_self (p : AllocPc β) : (s.setPc l p).pc l = p := by
  show update s.pc l p l = p
  exact update_self l p s.pc

omit [DecidableEq β] in
theorem setPc_pc_of_ne (p : AllocPc β) (h : l' ≠ l) : (s.setPc l p).pc l' = s.pc l' := by
  show update s.pc l p l' = s.pc l'
  exact update_of_ne h p s.pc

/-- A step of one thread leaves the caches and calls of the others alone. -/
theorem step_frame {a : AllocAction Λ β} (h : s.step K a = some s') (hl : l ≠ a.via) :
    s'.loc l = s.loc l ∧ s'.pc l = s.pc l := by
  cases a with
  | alloc l' size m =>
    simp only [AllocState.step, AllocState.alloc] at h
    split at h
    · split_ifs at h
      · rw [(malloc_frame h).1, (malloc_frame h).2]
        exact ⟨rfl, rfl⟩
      · obtain rfl := some.inj h
        exact ⟨rfl, setPc_pc_of_ne _ hl⟩
      · obtain rfl := some.inj h
        exact ⟨setLoc_loc_of_ne _ hl, rfl⟩
    · simp at h
  | fill l' =>
    simp only [AllocState.step, AllocState.fill] at h
    split at h
    · split_ifs at h <;> obtain rfl := some.inj h
      · exact ⟨setLoc_loc_of_ne _ hl, rfl⟩
      · exact ⟨rfl, setPc_pc_of_ne _ hl⟩
    · simp at h
  | allocRest l' m =>
    simp only [AllocState.step, AllocState.allocRest] at h
    split at h
    · split_ifs at h
      · rw [(malloc_frame h).1, (malloc_frame h).2]
        exact ⟨rfl, setPc_pc_of_ne _ hl⟩
      · obtain rfl := some.inj h
        exact ⟨setLoc_loc_of_ne _ hl, setPc_pc_of_ne _ hl⟩
    · simp at h
  | free l' b =>
    simp only [AllocState.step, AllocState.free] at h
    split at h
    · split_ifs at h <;> obtain rfl := some.inj h
      · exact ⟨rfl, rfl⟩
      · exact ⟨rfl, setPc_pc_of_ne _ hl⟩
      · exact ⟨setLoc_loc_of_ne _ hl, rfl⟩
    · simp at h
  | halve l' =>
    simp only [AllocState.step, AllocState.halve] at h
    split at h
    · split_ifs at h <;> obtain rfl := some.inj h
      · exact ⟨setLoc_loc_of_ne _ hl, rfl⟩
      · exact ⟨rfl, setPc_pc_of_ne _ hl⟩
    · simp at h
  | spill l' =>
    simp only [AllocState.step, AllocState.spill] at h
    split at h
    · split_ifs at h <;> obtain rfl := some.inj h
      · exact ⟨setLoc_loc_of_ne _ hl, rfl⟩
      · exact ⟨setLoc_loc_of_ne _ hl, setPc_pc_of_ne _ hl⟩
    · simp at h

end Frame

/-! ## Places of the blocks -/

/-- What a kind of cache is for: it holds at most `lim capacity` blocks. -/
structure CacheLaws {β σ : Type*} (K : CacheKind β σ) (lim : ℕ → ℕ) where
  items : σ → List β
  size_eq : ∀ c, K.size c = (items c).length
  empty_iff : ∀ c, K.empty c = true ↔ items c = []
  full_iff : ∀ c, K.full c = true ↔ lim (K.capacity c) ≤ (items c).length
  take_items : ∀ c, items c ≠ [] → (items c).Perm ((K.take c).1 :: items (K.take c).2)
  put_items : ∀ c b, (items c).length < lim (K.capacity c) → (items (K.put c b)).Perm (b :: items c)
  take_capacity : ∀ c, K.capacity (K.take c).2 = K.capacity c
  put_capacity : ∀ c b, K.capacity (K.put c b) = K.capacity c
  half_le : ∀ n, n / 2 ≤ lim n

/-- Where a block can be if `malloc` has given it out: with a caller, in a call that frees it, in a
local cache, and in the global cache. -/
inductive Place (Λ : Type*)
  | held
  | call (l : Λ)
  | loc (l : Λ)
  | glob
deriving DecidableEq

section Places

variable {Λ β σ : Type*} [DecidableEq Λ] {K : CacheKind β σ} {lim : ℕ → ℕ} (laws : CacheLaws K lim)

/-- The blocks in a place. -/
def places (s : AllocState Λ β σ) : Place Λ → List β
  | .held => s.held
  | .call l => (s.pc l).block
  | .loc l => laws.items (s.loc l)
  | .glob => laws.items s.glob

theorem places_setLoc (s : AllocState Λ β σ) (l : Λ) (c : σ) :
    places laws (s.setLoc l c) = update (places laws s) (.loc l) (laws.items c) := by
  funext p
  cases p with
  | loc l' =>
    by_cases hl : l' = l
    · subst hl
      simp [places, AllocState.setLoc]
    · simp [places, AllocState.setLoc, hl]
  | _ => simp [places, AllocState.setLoc]

theorem places_setPc (s : AllocState Λ β σ) (l : Λ) (q : AllocPc β) :
    places laws (s.setPc l q) = update (places laws s) (.call l) q.block := by
  funext p
  cases p with
  | call l' =>
    by_cases hl : l' = l
    · subst hl
      simp [places, AllocState.setPc]
    · simp [places, AllocState.setPc, hl]
  | _ => simp [places, AllocState.setPc]

theorem places_setGlob (s : AllocState Λ β σ) (c : σ) :
    places laws (s.setGlob c) = update (places laws s) .glob (laws.items c) := by
  funext p
  cases p <;> simp [places, AllocState.setGlob]

theorem places_setHeld (s : AllocState Λ β σ) (bs : List β) :
    places laws (s.setHeld bs) = update (places laws s) .held bs := by
  funext p
  cases p <;> simp [places, AllocState.setHeld]

omit [DecidableEq Λ] in
theorem places_mfree [DecidableEq β] (s : AllocState Λ β σ) (b : β) :
    places laws (s.mfree b) = places laws s := by
  funext p
  cases p <;> rfl

omit [DecidableEq Λ] in
theorem places_setLock (s : AllocState Λ β σ) (o : Option Λ) :
    places laws (s.setLock o) = places laws s := by
  funext p
  cases p <;> rfl

end Places

/-! ## What every step keeps -/

section Inv

variable {Λ β σ : Type*} [DecidableEq Λ] {K : CacheKind β σ} {lim : ℕ → ℕ}

/-- The caches have their capacities and do not hold more than they should. -/
structure CacheBounds (laws : CacheLaws K lim) (lcap : Λ → ℕ) (gcap : ℕ) (s : AllocState Λ β σ) :
  Prop where
  loc_cap : ∀ l, K.capacity (s.loc l) = lcap l
  glob_cap : K.capacity s.glob = gcap
  loc_le : ∀ l, (laws.items (s.loc l)).length ≤ lim (lcap l)
  glob_le : (laws.items s.glob).length ≤ lim gcap

/-- Every block that is not with a caller has a property. -/
def AllCached (P : β → Prop) (f : Place Λ → List β) : Prop := ∀ p b, p ≠ .held → b ∈ f p → P b

/-- Every block that `malloc` has given out is in exactly one place, no cache holds more than it
should, and every block in a cache has the native size. -/
structure AllocInv (laws : CacheLaws K lim) (lcap : Λ → ℕ) (gcap : ℕ) (s : AllocState Λ β σ) :
  Prop where
  scattered : Scattered (places laws s) fun b => s.live b = true
  bounds : CacheBounds laws lcap gcap s
  native : AllCached (fun b => s.hdr b = s.nativeSize) (places laws s)

variable {laws : CacheLaws K lim} {lcap : Λ → ℕ} {gcap : ℕ} {s s' : AllocState Λ β σ} {l : Λ}

variable {c : σ} {b : β}

omit [DecidableEq Λ] in
theorem CacheLaws.ne_nil (hc : K.empty c = false) : laws.items c ≠ [] := by
  intro h
  rw [← laws.empty_iff, hc] at h
  simp at h

omit [DecidableEq Λ] in
theorem CacheLaws.ne_nil_of_size {n : ℕ} (hc : n < K.size c) : laws.items c ≠ [] := by
  intro h
  rw [laws.size_eq, h] at hc
  simp at hc

omit [DecidableEq Λ] in
theorem CacheLaws.room (hc : K.full c = false) : (laws.items c).length < lim (K.capacity c) := by
  have h := laws.full_iff c
  rw [hc] at h
  simpa using h

omit [DecidableEq Λ] in
theorem CacheLaws.length_take_le (hc : laws.items c ≠ []) :
    (laws.items (K.take c).2).length ≤ (laws.items c).length := by
  rw [(laws.take_items c hc).length_eq]
  exact Nat.le_succ _

omit [DecidableEq Λ] in
theorem CacheLaws.length_put_le (b : β) (hc : (laws.items c).length < lim (K.capacity c)) :
    (laws.items (K.put c b)).length ≤ lim (K.capacity c) := by
  rw [(laws.put_items c b hc).length_eq]
  exact hc

namespace CacheBounds

omit [DecidableEq Λ] in
theorem congr (h : CacheBounds laws lcap gcap s) (hloc : s'.loc = s.loc)
    (hglob : s'.glob = s.glob) : CacheBounds laws lcap gcap s' := by
  refine ⟨fun l => ?_, ?_, fun l => ?_, ?_⟩
  · rw [hloc]
    exact h.loc_cap l
  · rw [hglob]
    exact h.glob_cap
  · rw [hloc]
    exact h.loc_le l
  · rw [hglob]
    exact h.glob_le

theorem setLoc (h : CacheBounds laws lcap gcap s) (hcap : K.capacity c = K.capacity (s.loc l))
    (hle : (laws.items c).length ≤ lim (lcap l)) : CacheBounds laws lcap gcap (s.setLoc l c) where
  loc_cap l' := by
    unfold AllocState.setLoc
    dsimp only
    rw [update_apply]
    split_ifs with hl
    · rw [hcap, hl]
      exact h.loc_cap l
    · exact h.loc_cap l'
  glob_cap := h.glob_cap
  loc_le l' := by
    unfold AllocState.setLoc
    dsimp only
    rw [update_apply]
    split_ifs with hl
    · rw [hl]
      exact hle
    · exact h.loc_le l'
  glob_le := h.glob_le

/-- Taking a block keeps the bounds. -/
theorem takeLoc (h : CacheBounds laws lcap gcap s) (hne : laws.items (s.loc l) ≠ []) :
    CacheBounds laws lcap gcap (s.setLoc l (K.take (s.loc l)).2) :=
  h.setLoc (laws.take_capacity _) (Nat.le_trans (laws.length_take_le hne) (h.loc_le l))

/-- So does putting one where there is room. -/
theorem putLoc (h : CacheBounds laws lcap gcap s)
    (hroom : (laws.items (s.loc l)).length < lim (K.capacity (s.loc l))) :
    CacheBounds laws lcap gcap (s.setLoc l (K.put (s.loc l) b)) :=
  h.setLoc (laws.put_capacity _ b) (h.loc_cap l ▸ laws.length_put_le b hroom)

omit [DecidableEq Λ] in
theorem takeGlob (h : CacheBounds laws lcap gcap s) (hne : laws.items s.glob ≠ []) :
    CacheBounds laws lcap gcap (s.setGlob (K.take s.glob).2) :=
  ⟨h.loc_cap, (laws.take_capacity _).trans h.glob_cap, h.loc_le,
    Nat.le_trans (laws.length_take_le hne) h.glob_le⟩

omit [DecidableEq Λ] in
theorem putGlob (h : CacheBounds laws lcap gcap s)
    (hroom : (laws.items s.glob).length < lim (K.capacity s.glob)) :
    CacheBounds laws lcap gcap (s.setGlob (K.put s.glob b)) :=
  ⟨h.loc_cap, (laws.put_capacity _ b).trans h.glob_cap, h.loc_le,
    h.glob_cap ▸ laws.length_put_le b hroom⟩

end CacheBounds

namespace AllCached

variable {P : β → Prop} {f : Place Λ → List β} {p q : Place Λ} {xs ys : List β}

theorem update (h : AllCached P f) (hxs : p ≠ .held → ∀ b ∈ xs, P b) :
    AllCached P (update f p xs) := by
  intro q b hq hb
  rw [update_apply] at hb
  split_ifs at hb with hpq
  · exact hxs (hpq ▸ hq) b hb
  · exact h q b hq hb

theorem remove (h : AllCached P f) (hp : (f p).Perm (b :: xs)) :
    AllCached P (Function.update f p xs) :=
  h.update fun hne x hx => h p x hne (hp.mem_iff.mpr (mem_cons_of_mem b hx))

/-- A block moves from one place to another. -/
theorem move (h : AllCached P f) (hp : (f p).Perm (b :: xs)) (hq : ys.Perm (b :: f q))
    (hb : p = .held → P b) : AllCached P (Function.update (Function.update f p xs) q ys) := by
  refine (h.remove hp).update fun hne x hx => ?_
  rcases mem_cons.mp (hq.mem_iff.mp hx) with rfl | hx
  · by_cases hheld : p = .held
    · exact hb hheld
    · exact h p x hheld (hp.mem_iff.mpr mem_cons_self)
  · exact h q x hne hx

end AllCached

namespace AllocInv

/-- A block goes from one place to another. If a caller gives it away, it has the native size. -/
theorem move (h : AllocInv laws lcap gcap s) {p q : Place Λ} {xs ys : List β} (hpq : p ≠ q)
    (hp : (places laws s p).Perm (b :: xs)) (hq : ys.Perm (b :: places laws s q))
    (hb : p = .held → s.hdr b = s.nativeSize) (hbounds : CacheBounds laws lcap gcap s')
    (hsame : s'.live = s.live ∧ s'.hdr = s.hdr ∧ s'.nativeSize = s.nativeSize)
    (hplaces : places laws s' = update (update (places laws s) p xs) q ys) :
    AllocInv laws lcap gcap s' := by
  obtain ⟨hlive, hhdr, hsize⟩ := hsame
  refine ⟨?_, hbounds, ?_⟩
  · rw [hlive, hplaces]
    exact h.scattered.move hpq hp hq
  · rw [hhdr, hsize, hplaces]
    exact h.native.move hp hq hb

/-- A block of the local cache is handed out. -/
theorem takeLocal (h : AllocInv laws lcap gcap s) (hne : K.empty (s.loc l) = false) :
    AllocInv laws lcap gcap (s.takeLocal K l) := by
  have hitems := laws.ne_nil hne
  refine h.move (p := .loc l) (q := .held) (by simp) (laws.take_items _ hitems) (.refl _) nofun
    ((h.bounds.takeLoc hitems).congr rfl rfl) ⟨rfl, rfl, rfl⟩ ?_
  rw [AllocState.takeLocal, places_setHeld, places_setLoc]
  rfl

theorem setPc (h : AllocInv laws lcap gcap s) {q : AllocPc β} (hq : q.block = (s.pc l).block) :
    AllocInv laws lcap gcap (s.setPc l q) := by
  have hplaces : places laws (s.setPc l q) = places laws s := by
    rw [places_setPc, hq]
    exact update_eq_self _ _
  refine ⟨?_, h.bounds.congr rfl rfl, ?_⟩
  · rw [hplaces]
    exact h.scattered
  · rw [hplaces]
    exact h.native

omit [DecidableEq Λ] in
theorem setLock (h : AllocInv laws lcap gcap s) (o : Option Λ) :
    AllocInv laws lcap gcap (s.setLock o) :=
  ⟨h.scattered, h.bounds.congr rfl rfl, h.native⟩

/-- A block moves from the global cache to a local one. -/
theorem fillOne (h : AllocInv laws lcap gcap s)
    (hsize : K.size (s.loc l) < K.capacity (s.loc l) / 2) (hne : K.empty s.glob = false) :
    AllocInv laws lcap gcap
      ((s.setGlob (K.take s.glob).2).setLoc l (K.put (s.loc l) (K.take s.glob).1)) := by
  have hitems := laws.ne_nil hne
  rw [laws.size_eq] at hsize
  have hroom := Nat.lt_of_lt_of_le hsize (laws.half_le _)
  refine h.move (p := .glob) (q := .loc l) (by simp) (laws.take_items _ hitems)
    (laws.put_items _ _ hroom) nofun ((h.bounds.takeGlob hitems).putLoc hroom) ⟨rfl, rfl, rfl⟩ ?_
  rw [places_setLoc, places_setGlob]

/-- A block moves from a local cache to the global one. -/
theorem halveOne (h : AllocInv laws lcap gcap s) {n : ℕ} (hsize : n < K.size (s.loc l))
    (hfull : K.full s.glob = false) : AllocInv laws lcap gcap
      ((s.setLoc l (K.take (s.loc l)).2).setGlob (K.put s.glob (K.take (s.loc l)).1)) := by
  have hitems := laws.ne_nil_of_size hsize
  have hroom := laws.room hfull
  refine h.move (p := .loc l) (q := .glob) (by simp) (laws.take_items _ hitems)
    (laws.put_items _ _ hroom) nofun ((h.bounds.takeLoc hitems).putGlob hroom) ⟨rfl, rfl, rfl⟩ ?_
  rw [places_setGlob, places_setLoc]

/-- A block that is freed is put in the local cache. -/
theorem store (h : AllocInv laws lcap gcap s) (hpc : (s.pc l).block = [b])
    (hroom : (laws.items (s.loc l)).length < lim (K.capacity (s.loc l))) :
    AllocInv laws lcap gcap ((s.setPc l .idle).setLoc l (K.put (s.loc l) b)) := by
  have hcall : (places laws s (.call l)).Perm [b] := by
    rw [← hpc]
    exact .refl _
  have hbounds : CacheBounds laws lcap gcap (s.setPc l .idle) := h.bounds.congr rfl rfl
  refine h.move (q := .loc l) (by simp) hcall (laws.put_items _ _ hroom) nofun
    (hbounds.putLoc hroom) ⟨rfl, rfl, rfl⟩ ?_
  rw [places_setLoc, places_setPc]
  rfl

variable [DecidableEq β]

omit [DecidableEq Λ] in
theorem live_mfree (s : AllocState Λ β σ) (b x : β) :
    (s.mfree b).live x = true ↔ x ≠ b ∧ s.live x = true := by
  unfold AllocState.mfree
  by_cases hx : x = b
  · simp [hx]
  · simp [hx]

theorem malloc (h : AllocInv laws lcap gcap s) {size : ℕ} {m : Option β}
    (hstep : s.malloc size m = some s') : AllocInv laws lcap gcap s' := by
  cases m with
  | none => exact some.inj hstep ▸ h
  | some b =>
    simp only [AllocState.malloc] at hstep
    split_ifs at hstep with hlive
    obtain rfl := some.inj hstep
    refine ⟨?_, h.bounds.congr rfl rfl, fun p x hp hx => ?_⟩
    · have hadd : Scattered (update (places laws s) .held (b :: s.held))
          fun x => update s.live b true x = true := by
        refine h.scattered.add hlive (.refl _) fun x => ?_
        by_cases hx : x = b
        · simp [hx]
        · simp [hx]
      rw [← places_setHeld laws] at hadd
      exact hadd
    · have hx' : x ∈ places laws s p := by
        cases p with
        | held => exact absurd rfl hp
        | _ => exact hx
      have hne : x ≠ b := by
        rintro rfl
        exact hlive ((h.scattered.live_iff x).mpr ⟨p, hx'⟩)
      show update s.hdr b size x = s.nativeSize
      rw [update_of_ne hne]
      exact h.native p x hp hx'

/-- A block of a local cache is given back to the system. -/
theorem spillOne (h : AllocInv laws lcap gcap s) {n : ℕ} (hsize : n < K.size (s.loc l)) :
    AllocInv laws lcap gcap ((s.setLoc l (K.take (s.loc l)).2).mfree (K.take (s.loc l)).1) := by
  have hitems := laws.ne_nil_of_size hsize
  have htake : (places laws s (.loc l)).Perm _ := laws.take_items _ hitems
  refine ⟨?_, (h.bounds.takeLoc hitems).congr rfl rfl, ?_⟩
  · rw [places_mfree, places_setLoc]
    exact h.scattered.remove htake fun x => live_mfree s _ x
  · rw [places_mfree, places_setLoc]
    exact h.native.remove htake

theorem free (h : AllocInv laws lcap gcap s) (hstep : s.free K l b = some s') :
    AllocInv laws lcap gcap s' := by
  unfold AllocState.free at hstep
  cases hpc : s.pc l with
  | idle =>
    simp only [hpc] at hstep
    split_ifs at hstep with hheld hsize hfull hlock <;> obtain rfl := some.inj hstep <;>
      have herase : (places laws s .held).Perm (b :: s.held.erase b) := perm_cons_erase hheld
    · -- it has another size and goes back to `malloc`
      refine ⟨?_, h.bounds.congr rfl rfl, ?_⟩
      · rw [places_mfree, places_setHeld]
        exact h.scattered.remove herase fun x => live_mfree s b x
      · rw [places_mfree, places_setHeld]
        exact h.native.remove herase
    · -- the call waits with it for room
      have hcall : [b].Perm (b :: places laws s (.call l)) := by
        rw [places, hpc]
        exact .refl _
      refine h.move (by simp) herase hcall (fun _ => not_not.mp hsize) (h.bounds.congr rfl rfl)
        ⟨rfl, rfl, rfl⟩ ?_
      rw [places_setPc, places_setHeld, places_setLock]
      rfl
    · -- it is put in the local cache
      have hroom := laws.room (Bool.eq_false_iff.mpr hfull)
      have hbounds : CacheBounds laws lcap gcap (s.setHeld (s.held.erase b)) :=
        h.bounds.congr rfl rfl
      refine h.move (q := .loc l) (by simp) herase (laws.put_items _ _ hroom)
        (fun _ => not_not.mp hsize) (hbounds.putLoc hroom) ⟨rfl, rfl, rfl⟩ ?_
      rw [places_setLoc, places_setHeld]
  | _ => simp [hpc] at hstep

/-- Every step keeps the invariant, if there is room when a block that has been freed is put in a
local cache. -/
theorem step (h : AllocInv laws lcap gcap s) {a : AllocAction Λ β} (hstep : s.step K a = some s')
    (hroom : ∀ l, a = .spill l → lcap l / 2 < lim (lcap l)) : AllocInv laws lcap gcap s' := by
  cases a with
  | alloc l size m =>
    simp only [AllocState.step, AllocState.alloc] at hstep
    cases hpc : s.pc l with
    | idle =>
      simp only [hpc] at hstep
      split_ifs at hstep with hsize hempty hlock
      · exact h.malloc hstep
      · obtain rfl := some.inj hstep
        refine (h.setLock (some l)).setPc ?_
        show [] = (s.pc l).block
        rw [hpc]
        rfl
      · obtain rfl := some.inj hstep
        exact h.takeLocal (Bool.eq_false_iff.mpr hempty)
    | _ => simp [hpc] at hstep
  | fill l =>
    simp only [AllocState.step, AllocState.fill] at hstep
    cases hpc : s.pc l with
    | filling =>
      simp only [hpc] at hstep
      split_ifs at hstep with hcond <;> obtain rfl := some.inj hstep
      · exact h.fillOne hcond.1 hcond.2
      · refine (h.setLock none).setPc ?_
        show [] = (s.pc l).block
        rw [hpc]
        rfl
    | _ => simp [hpc] at hstep
  | allocRest l m =>
    simp only [AllocState.step, AllocState.allocRest] at hstep
    cases hpc : s.pc l with
    | filled =>
      simp only [hpc] at hstep
      have hidle : AllocInv laws lcap gcap (s.setPc l .idle) := h.setPc (by rw [hpc]; rfl)
      split_ifs at hstep with hempty
      · exact hidle.malloc hstep
      · obtain rfl := some.inj hstep
        exact hidle.takeLocal (Bool.eq_false_iff.mpr hempty)
    | _ => simp [hpc] at hstep
  | free l b => exact h.free hstep
  | halve l =>
    simp only [AllocState.step, AllocState.halve] at hstep
    cases hpc : s.pc l with
    | halving b =>
      simp only [hpc] at hstep
      split_ifs at hstep with hcond <;> obtain rfl := some.inj hstep
      · exact h.halveOne hcond.1 hcond.2
      · refine (h.setLock none).setPc ?_
        show [b] = (s.pc l).block
        rw [hpc]
        rfl
    | _ => simp [hpc] at hstep
  | spill l =>
    simp only [AllocState.step, AllocState.spill] at hstep
    cases hpc : s.pc l with
    | spilling b =>
      simp only [hpc] at hstep
      split_ifs at hstep with hcond <;> obtain rfl := some.inj hstep
      · exact h.spillOne hcond
      · have hcap := h.bounds.loc_cap l
        have hlim := hroom l rfl
        rw [laws.size_eq, hcap] at hcond
        exact h.store (by rw [hpc]; rfl) (by rw [hcap]; omega)
    | _ => simp [hpc] at hstep

end AllocInv

/-- No thread is in a call, and `malloc` has given out no block. -/
def allocInit (loc : Λ → σ) (glob : σ) (nativeSize : ℕ) : AllocState Λ β σ :=
  ⟨loc, glob, nativeSize, fun _ => .idle, none, [], fun _ => 0, fun _ => false⟩

omit [DecidableEq Λ] in
/-- The invariant holds when all caches are empty. -/
theorem AllocInv.init {loc : Λ → σ} {glob : σ}
    (hloc : ∀ l, K.capacity (loc l) = lcap l ∧ laws.items (loc l) = [])
    (hglob : K.capacity glob = gcap ∧ laws.items glob = []) (nativeSize : ℕ) :
    AllocInv laws lcap gcap (allocInit loc glob nativeSize : AllocState Λ β σ) := by
  have hplaces : ∀ p, places laws (allocInit loc glob nativeSize : AllocState Λ β σ) p = [] := by
    intro p
    cases p with
    | held => rfl
    | call l => rfl
    | loc l => exact (hloc l).2
    | glob => exact hglob.2
  refine ⟨⟨fun p => ?_, fun p q b hb => ?_, fun b => ?_⟩,
    ⟨fun l => (hloc l).1, hglob.1, fun l => ?_, ?_⟩, fun p b _ hb => ?_⟩
  · rw [hplaces]
    exact nodup_nil
  · rw [hplaces] at hb
    simp at hb
  · simp only [hplaces]
    simp [allocInit]
  · simp [allocInit, hloc]
  · simp [allocInit, hglob]
  · rw [hplaces] at hb
    simp at hb

/-- Every run keeps the invariant, if there is room at the end of every free call in it. -/
theorem AllocInv.run [DecidableEq β] (h : AllocInv laws lcap gcap s) {as : List (AllocAction Λ β)}
    (hroom : ∀ l, AllocAction.spill l ∈ as → lcap l / 2 < lim (lcap l))
    (hrun : Lib.run (AllocState.step K) s as = some s') : AllocInv laws lcap gcap s' := by
  refine Along.invariant (C := fun _ a => ∀ l, a = .spill l → lcap l / 2 < lim (lcap l))
    (fun s a s' hs hC hstep => hs.step hstep hC) (along_of_forall_mem ?_) hrun h
  rintro a ha - l rfl
  exact hroom l ha

end Inv

end Pptk.Alloc
