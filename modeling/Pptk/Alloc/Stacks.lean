import Pptk.Alloc.Caching

/-!
# Allocators with an array and with a list

Model of the caches of `alloc/asalloc.h`, which are arrays used as stacks, and of `alloc/llalloc.h`,
which are linked lists used as queues. A linked list is a list here; its nodes are in the blocks
themselves, which is why the native size is at least that of a node.

Main results: `asLaws`, `llLaws` and `as_ll_alloc_conserved`.
-/

namespace Pptk.Alloc

open Lib Function List

variable {β : Type*}

/-! ## Arrays -/

/-- The fields of `struct as_alloc_local` and `struct as_alloc_global` (asalloc.h:11-25) that make a
cache. -/
structure AsCache (β : Type*) where
  cache : ℕ → β
  capacity : ℕ
  size : ℕ

namespace AsCache

/-- The last block is taken (asalloc.h:73-74, asalloc.c:154-155, 172-173, 181-183). -/
def take (null : β) (c : AsCache β) : β × AsCache β :=
  (c.cache (c.size - 1), { c with
    cache := update c.cache (c.size - 1) null, size := c.size - 1 })

/-- A block is put at the end (asalloc.h:105, asalloc.c:154, 172). -/
def put (c : AsCache β) (b : β) : AsCache β :=
  { c with cache := update c.cache c.size b, size := c.size + 1 }

def items (c : AsCache β) : List β := (range c.size).map c.cache

theorem map_update_range (f : ℕ → β) (n : ℕ) (b : β) :
    (range n).map (update f n b) = (range n).map f := by
  apply map_congr_left
  intro i hi
  exact update_of_ne (Nat.ne_of_lt (mem_range.mp hi)) b f

/-- A block is put on top of the stack. -/
theorem items_put (c : AsCache β) (b : β) : (c.put b).items = c.items ++ [b] := by
  unfold items put
  dsimp only
  rw [range_succ, map_append, map_update_range, map_singleton, update_self]

/-- The block on top of the stack is taken. -/
theorem items_take (null : β) {c : AsCache β} (h : c.items ≠ []) :
    c.items = (c.take null).2.items ++ [(c.take null).1] := by
  obtain ⟨n, hn⟩ : ∃ n, c.size = n + 1 := by
    refine Nat.exists_eq_succ_of_ne_zero fun h0 => h ?_
    simp [items, h0]
  unfold items take
  dsimp only
  rw [hn, Nat.add_sub_cancel, map_update_range, range_succ, map_append, map_singleton]

end AsCache

/-- How the caches of `asalloc` are kept. -/
def asKind (null : β) : CacheKind β (AsCache β) where
  empty c := c.size == 0
  full c := decide (c.size ≥ c.capacity)
  size := AsCache.size
  capacity := AsCache.capacity
  take := AsCache.take null
  put := AsCache.put

def asLaws (null : β) : CacheLaws (asKind null) id where
  items := AsCache.items
  size_eq c := by simp [AsCache.items, asKind]
  empty_iff c := by simp [AsCache.items, asKind]
  full_iff c := by simp [AsCache.items, asKind]
  take_items c hc := by
    rw [AsCache.items_take null hc]
    exact perm_append_singleton _ _
  put_items c b _ := by
    rw [asKind, AsCache.items_put]
    exact perm_append_singleton _ _
  take_capacity _ := rfl
  put_capacity _ _ := rfl
  half_le n := Nat.div_le_self n 2

/-- `as_alloc_global_init` and `as_alloc_local_init` (asalloc.c:73-94, 111-128). -/
def asInit {Λ : Type*} (null : β) (lcap : Λ → ℕ) (gcap nativeSize : ℕ) :
    AllocState Λ β (AsCache β) :=
  allocInit (fun l => ⟨fun _ => null, lcap l, 0⟩) ⟨fun _ => null, gcap, 0⟩ nativeSize

/-! ## Lists -/

/-- The fields of `struct ll_alloc_local` and `struct ll_alloc_global` (llalloc.h:12-26) that make a
cache. -/
structure LlCache (β : Type*) where
  cache : List β
  capacity : ℕ
  size : ℕ
  size_eq : size = cache.length

namespace LlCache

/-- The first block is taken (llalloc.h:74-76, llalloc.c:145-147, 166-168, 178-180). -/
def take (null : β) (c : LlCache β) : β × LlCache β :=
  match c with
  | ⟨[], capacity, size, h⟩ => (null, ⟨[], capacity, size, h⟩)
  | ⟨b :: bs, capacity, size, h⟩ => (b, ⟨bs, capacity, size - 1, by rw [h]; rfl⟩)

/-- A block is put at the end (llalloc.h:108-110, llalloc.c:148-149, 169-170). -/
def put (c : LlCache β) (b : β) : LlCache β :=
  { c with cache := c.cache ++ [b], size := c.size + 1, size_eq := by simp [c.size_eq] }

end LlCache

/-- How the caches of `llalloc` are kept. -/
def llKind (null : β) : CacheKind β (LlCache β) where
  empty c := c.size == 0
  full c := decide (c.size ≥ c.capacity)
  size := LlCache.size
  capacity := LlCache.capacity
  take := LlCache.take null
  put := LlCache.put

def llLaws (null : β) : CacheLaws (llKind null) id where
  items := LlCache.cache
  size_eq c := c.size_eq
  empty_iff c := by simp [llKind, c.size_eq]
  full_iff c := by simp [llKind, c.size_eq]
  take_items c hc := by
    obtain ⟨_ | ⟨b, bs⟩, capacity, size, h⟩ := c
    · exact absurd rfl hc
    · exact .refl _
  put_items c b _ := perm_append_singleton _ _
  take_capacity c := by
    obtain ⟨_ | ⟨b, bs⟩, capacity, size, h⟩ := c <;> rfl
  put_capacity _ _ := rfl
  half_le n := Nat.div_le_self n 2

/-- `sizeof(struct linked_list_node)`. -/
def nodeSize : ℕ := 16

/-- `ll_alloc_global_init` and `ll_alloc_local_init` (llalloc.c:72-90, 107-119). -/
def llInit {Λ : Type*} (lcap : Λ → ℕ) (gcap nativeSize : ℕ) : AllocState Λ β (LlCache β) :=
  allocInit (fun l => ⟨[], lcap l, 0, rfl⟩) ⟨[], gcap, 0, rfl⟩
    (if nativeSize < nodeSize then nodeSize else nativeSize)

/-! ## Conservation -/

/-- Every block that `malloc` has given out is in exactly one place and there once, every other
block is in no place, no cache holds more than its capacity, and every block in a cache has the
native size. -/
structure Conserved {Λ σ : Type*} {K : CacheKind β σ} {lim : ℕ → ℕ} (laws : CacheLaws K lim)
    (s : AllocState Λ β σ) : Prop where
  one_place : ∀ b, s.live b = true → ∃! p, b ∈ places laws s p
  once : ∀ p, (places laws s p).Nodup
  returned : ∀ b p, s.live b = false → b ∉ places laws s p
  loc_le : ∀ l, K.size (s.loc l) ≤ K.capacity (s.loc l)
  glob_le : K.size s.glob ≤ K.capacity s.glob
  native : ∀ p b, p ≠ .held → b ∈ places laws s p → s.hdr b = s.nativeSize

theorem AllocInv.conserved {Λ σ : Type*} {K : CacheKind β σ} {laws : CacheLaws K id} {lcap : Λ → ℕ}
    {gcap : ℕ} {s : AllocState Λ β σ} (h : AllocInv laws lcap gcap s) : Conserved laws s where
  one_place b hb := h.scattered.existsUnique hb
  once := h.scattered.nodup
  returned b p hb hp := by
    have hlive := (h.scattered.live_iff b).mpr ⟨p, hp⟩
    rw [hb] at hlive
    simp at hlive
  loc_le l := by
    rw [laws.size_eq, h.bounds.loc_cap]
    exact h.bounds.loc_le l
  glob_le := by
    rw [laws.size_eq, h.bounds.glob_cap]
    exact h.bounds.glob_le
  native := h.native

/-- In every run of any number of threads, both allocators keep every block in exactly one place. -/
theorem as_ll_alloc_conserved {Λ β : Type*} [DecidableEq Λ] [DecidableEq β] (null : β)
    (lcap : Λ → ℕ) (gcap nativeSize : ℕ) (hlcap : ∀ l, 1 ≤ lcap l) (as : List (AllocAction Λ β)) :
    (∀ s, run (AllocState.step (asKind null)) (asInit null lcap gcap nativeSize) as = some s →
      Conserved (asLaws null) s) ∧
    (∀ s, run (AllocState.step (llKind null)) (llInit lcap gcap nativeSize) as = some s →
      Conserved (llLaws null) s) := by
  have hroom : ∀ l, lcap l / 2 < id (lcap l) := fun l => Nat.div_lt_self (hlcap l) (by omega)
  constructor
  · intro s hs
    have hinit : AllocInv (asLaws null) lcap gcap (asInit null lcap gcap nativeSize) := by
      unfold asInit
      apply AllocInv.init
      · exact fun l => ⟨rfl, rfl⟩
      · exact ⟨rfl, rfl⟩
    exact (hinit.run (fun l _ => hroom l) hs).conserved
  · intro s hs
    have hinit : AllocInv (llLaws null) lcap gcap (llInit lcap gcap nativeSize) := by
      unfold llInit
      apply AllocInv.init
      · exact fun l => ⟨rfl, rfl⟩
      · exact ⟨rfl, rfl⟩
    exact (hinit.run (fun l _ => hroom l) hs).conserved

/-- Two blocks are freed through another local cache than that which allocated them, and the second
one finds it full: the first block goes to the global cache, of which there is room for one block.
-/
def migration : List (AllocAction Bool ℕ) :=
  [.alloc false 32 none, .fill false, .allocRest false (some 100), .alloc false 8 none, .fill false,
    .allocRest false (some 200), .free true 100, .free true 200, .halve true, .halve true,
    .spill true]

theorem as_ll_alloc_conserved_migration :
    ∃ s : AllocState Bool ℕ (AsCache ℕ), run (AllocState.step (asKind 0))
      (asInit 0 (fun _ => 1) 1 32) migration = some s ∧
      100 ∈ places (asLaws 0) s .glob ∧ 200 ∈ places (asLaws 0) s (.loc true) ∧
      Conserved (asLaws 0) s := by
  refine ⟨_, rfl, by decide, by decide, ?_⟩
  exact (as_ll_alloc_conserved 0 (fun _ => 1) 1 32 (fun _ => Nat.le_refl 1) migration).1 _ rfl

end Pptk.Alloc
