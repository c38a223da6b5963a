import Pptk.Ipfrag.RoundTrip

/-!
# The IPv4 fragmenter without memory

What `fragment4` does with memory when it allocates the packets (ipfrag/ipfrag.c:87-105). Packets
have addresses, and a store through a `NULL` pointer is an event of its own: the loop goes on behind
it, so that the unwinding is seen as well.

Main result: `fragment4_nomem_iff`.
-/

namespace Pptk.Ipfrag

open Pptk.Lib Pptk.Iphdr Function List

/-! ## Allocation -/

/-- The allocator of a call: `next i` is what its `i`-th call of `allocif_alloc` returns, the
address and the contents of a packet or `NULL`. Nothing is freed between the calls, so the addresses
are distinct. -/
structure Allocator where
  next : ℕ → Option (ℕ × Packet)
  distinct : ∀ i j p q, next i = some p → next j = some q → p.1 = q.1 → i = j

/-- The address that the `i`-th call returns, as a pointer. -/
def Allocator.addr (loc : Allocator) (i : ℕ) : Option ℕ := (loc.next i).map Prod.fst

/-- What a call of `fragment4` does with a packet, given by its pointer. -/
inductive PacketOp
  | alloc (p : Option ℕ)
  /-- The store to `p->data`. -/
  | setData (p : Option ℕ)
  | free (p : Option ℕ)
deriving DecidableEq

/-- The unwinding loop, with the pointers in the descriptors (ipfrag.c:95-103). -/
def unwind (pkt : ℕ → Option ℕ) : ℕ → List PacketOp
  | 0 => []
  | i + 1 => .free (pkt i) :: unwind pkt i

/-- The loop that allocates the packets (ipfrag.c:87-105): what it does, and the packets, or `none`
for `-ENOMEM`. The pointer is tested after the store. -/
def allocLoop (loc : Allocator) :
    ℕ → List Fragment → (ℕ → Option ℕ) → List PacketOp × Option (List (Fragment × Packet))
  | _, [], _ => ([], some [])
  | i, frag :: frags, pkt =>
    let pkt := update pkt i (loc.addr i)
    match loc.next i with
    | none => ([.alloc (pkt i), .setData (pkt i)] ++ unwind pkt i, none)
    | some (_, contents) =>
      let (ops, rest) := allocLoop loc (i + 1) frags pkt
      ([.alloc (pkt i), .setData (pkt i)] ++ ops, rest.map ((frag, contents) :: ·))

/-- `fragment4` (ipfrag.c:11-123): what it does with the packets, and the descriptors, or `none` for
`-ENOMEM`. -/
def fragment4Ops (e : Endian) (loc : Allocator) (ether : Mem) (sz : ℕ) (frags : List Fragment) :
    Except Fragment4Error (List PacketOp × Option (List Fragment)) :=
  match frameError e ether sz with
  | some err => .error err
  | none =>
    let iphdrlen := ipHdrLen ether ipOff
    let datamax := sz - etherHdrLen - iphdrlen
    match frags.zipIdx.findSome? fun (frag, i) => fragmentError datamax frag i with
    | some err => .error err
    | none =>
      match allocLoop loc 0 frags fun _ => none with
      | (ops, none) => .ok (ops, none)
      | (ops, some allocated) => do
        let out ← allocated.mapM fun (frag, pkt) => fillFragment e ether iphdrlen datamax frag pkt
        .ok (ops, some out)

/-- The frame and the descriptors pass the checks. -/
def Accepted (e : Endian) (ether : Mem) (sz : ℕ) (frags : List Fragment) : Prop :=
  frameError e ether sz = none ∧
    (frags.zipIdx.findSome? fun (frag, i) => fragmentError (payloadLen ether sz) frag i) = none

/-- Call `i` of the allocator is the first one that returns `NULL`. -/
def Allocator.FirstFails (loc : Allocator) (i : ℕ) :
    Prop := loc.next i = none ∧ ∀ j < i, (loc.next j).isSome

/-- The packets from before call `i` have been freed once, and nothing else has been freed. -/
def FreedOnce (loc : Allocator) (i : ℕ) (ops : List PacketOp) : Prop :=
  (∀ j < i, ops.count (.free (loc.addr j)) = 1) ∧ ∀ p, .free p ∈ ops → ∃ j < i, p = loc.addr j

/-! ## The loops -/

section Loops

variable {loc : Allocator} {frags : List Fragment}

theorem addr_of_next {i : ℕ} {p : ℕ × Packet} (h : loc.next i = some p) :
    loc.addr i = some p.1 := by
  rw [Allocator.addr, h, Option.map_some]

theorem unwind_eq (pkt : ℕ → Option ℕ) (i : ℕ) :
    unwind pkt i = ((range i).map fun j => PacketOp.free (pkt j)).reverse := by
  induction i with
  | zero => rfl
  | succ i ih => rw [unwind, ih, range_succ, map_append, reverse_append]; rfl

theorem unwind_congr {pkt pkt' : ℕ → Option ℕ} {i : ℕ} (h : ∀ j < i, pkt j = pkt' j) :
    unwind pkt i = unwind pkt' i := by
  rw [unwind_eq, unwind_eq]
  congr 1
  apply map_congr_left
  intro j hj
  rw [h j (mem_range.mp hj)]

/-- What the loop does with the packets of calls `i` to `n - 1`. -/
def allocOps (loc : Allocator) (i n : ℕ) : List PacketOp :=
  (range' i n).flatMap fun j => [.alloc (loc.addr j), .setData (loc.addr j)]

/-- What the loop does up to the first call that fails. -/
theorem allocLoop_nomem {i k : ℕ} {pkt : ℕ → Option ℕ} (hk : loc.FirstFails (i + k))
    (hlt : k < frags.length) (hpkt : ∀ j < i, pkt j = loc.addr j) :
    allocLoop loc i frags pkt =
      (allocOps loc i k ++ ([.alloc none, .setData none] ++ unwind loc.addr (i + k)), none) := by
  induction frags generalizing i k pkt with
  | nil => exact absurd hlt (Nat.not_lt_zero k)
  | cons frag frags ih =>
    have hupdate : ∀ j < i + 1, update pkt i (loc.addr i) j = loc.addr j := by
      intro j hj
      by_cases hji : j = i
      · rw [hji, update_self]
      · rw [update_of_ne hji, hpkt j (by omega)]
    unfold allocLoop
    dsimp only
    cases k with
    | zero =>
      rw [Nat.add_zero] at hk ⊢
      have haddr : loc.addr i = none := by
        rw [Allocator.addr, hk.1, Option.map_none]
      have hself : update pkt i (loc.addr i) i = none := (hupdate i (by omega)).trans haddr
      rw [hk.1]
      dsimp only
      rw [hself, unwind_congr fun j hj => hupdate j (by omega)]
      rfl
    | succ k =>
      obtain ⟨p, hp⟩ := Option.isSome_iff_exists.mp (hk.2 i (by omega))
      have hik : i + (k + 1) = i + 1 + k := by omega
      rw [hik] at hk ⊢
      rw [hp]
      dsimp only
      rw [ih hk (Nat.lt_of_succ_lt_succ hlt) hupdate, hupdate i (by omega), allocOps, allocOps,
        range'_succ, flatMap_cons, append_assoc]
      rfl

/-- The loop stores through `NULL` if it fails, and otherwise the packets are those of the older
model. -/
theorem allocLoop_spec (loc : Allocator) (frags : List Fragment) (i : ℕ) (pkt : ℕ → Option ℕ) :
    (.setData none ∈ (allocLoop loc i frags pkt).1 ↔ (allocLoop loc i frags pkt).2 = none) ∧
      allocFragments (fun i => (loc.next i).map Prod.snd) i frags =
        match (allocLoop loc i frags pkt).2 with
        | none => .error .nullPkt
        | some allocated => .ok allocated := by
  induction frags generalizing i pkt with
  | nil => exact ⟨by simp [allocLoop], rfl⟩
  | cons frag frags ih =>
    obtain ⟨hnull, hloop⟩ := ih (i + 1) (update pkt i (loc.addr i))
    unfold allocLoop allocFragments
    dsimp only
    rw [update_self]
    cases hnext : loc.next i with
    | none =>
      rw [Allocator.addr, hnext]
      exact ⟨by simp, rfl⟩
    | some p =>
      rw [addr_of_next hnext] at hnull hloop ⊢
      rw [Option.map_some]
      dsimp only
      rw [hloop]
      cases hrest : (allocLoop loc (i + 1) frags (update pkt i (some p.1))).2 with
      | none => exact ⟨by simp [hnull, hrest], rfl⟩
      | some rest => exact ⟨by simp [hnull, hrest], rfl⟩

theorem freedOnce_unwind {i : ℕ} (hi : loc.FirstFails i) {ops : List PacketOp}
    (hops : ∀ p, .free p ∉ ops) : FreedOnce loc i (ops ++ unwind loc.addr i) := by
  have hmem : ∀ p, .free p ∈ unwind loc.addr i ↔ ∃ j < i, p = loc.addr j := by
    intro p
    simp only [unwind_eq, mem_reverse, mem_map, mem_range, PacketOp.free.injEq, eq_comm]
  have hnodup : (unwind loc.addr i).Nodup := by
    rw [unwind_eq, nodup_reverse]
    apply List.Nodup.map_on _ nodup_range
    intro j hj k hk hjk
    obtain ⟨p, hp⟩ := Option.isSome_iff_exists.mp (hi.2 j (mem_range.mp hj))
    obtain ⟨q, hq⟩ := Option.isSome_iff_exists.mp (hi.2 k (mem_range.mp hk))
    rw [addr_of_next hp, addr_of_next hq] at hjk
    exact loc.distinct j k p q hp hq (Option.some.inj (PacketOp.free.inj hjk))
  constructor
  · intro j hj
    rw [count_append, count_eq_zero_of_not_mem (hops _), Nat.zero_add]
    exact count_eq_one_of_mem hnodup ((hmem _).mpr ⟨j, hj, rfl⟩)
  · intro p hp
    rw [mem_append] at hp
    exact (hmem p).mp (hp.resolve_left (hops p))

end Loops

/-! ## The call -/

/-- `fragment4` is this model, where it does not store through `NULL`. -/
theorem fragment4_eq (e : Endian) (loc : Allocator) (ether : Mem) (sz : ℕ) (frags : List Fragment) :
    fragment4 e (fun i => (loc.next i).map Prod.snd) ether sz frags =
      match fragment4Ops e loc ether sz frags with
      | .error err => .error err
      | .ok (ops, out) => if .setData none ∈ ops then .error .nullPkt else .ok (out.getD []) := by
  obtain ⟨hnull, hloop⟩ := allocLoop_spec loc frags 0 fun _ => none
  unfold fragment4 fragment4Ops
  cases frameError e ether sz with
  | some err => rfl
  | none =>
    dsimp only
    cases frags.zipIdx.findSome? fun (frag, i) =>
      fragmentError (sz - etherHdrLen - ipHdrLen ether ipOff) frag i with
    | some err => rfl
    | none =>
      dsimp only
      rw [hloop]
      generalize allocLoop loc 0 frags (fun _ => none) = result at hnull
      obtain ⟨ops, allocated⟩ := result
      cases allocated with
      | none => exact (if_pos (hnull.mpr rfl)).symm
      | some allocated =>
        have hops : .setData none ∉ ops := fun h => nomatch hnull.mp h
        dsimp only [bind, Except.bind]
        cases allocated.mapM fun (frag, pkt) =>
          fillFragment e ether (ipHdrLen ether ipOff) (sz - etherHdrLen - ipHdrLen ether ipOff) frag
            pkt with
        | error err => rfl
        | ok out => exact (if_neg hops).symm

theorem fragment4Ops_nomem {e : Endian} {loc : Allocator} {ether : Mem} {sz : ℕ}
    {frags : List Fragment} {i : ℕ} (h : Accepted e ether sz frags) (hi : loc.FirstFails i)
    (hlt : i < frags.length) :
    fragment4Ops e loc ether sz frags =
      .ok (allocOps loc 0 i ++ ([.alloc none, .setData none] ++ unwind loc.addr i), none) := by
  have hloop : allocLoop loc 0 frags (fun _ => none) =
      (allocOps loc 0 i ++ ([.alloc none, .setData none] ++ unwind loc.addr (0 + i)), none) :=
    allocLoop_nomem (by rwa [Nat.zero_add]) hlt fun j hj => absurd hj (Nat.not_lt_zero j)
  rw [Nat.zero_add] at hloop
  unfold fragment4Ops
  rw [h.1]
  dsimp only
  rw [h.2, hloop]

/-- When an allocation fails, the call returns `-ENOMEM` and frees what it allocated, but it has
stored through `NULL`: it is clean for every allocation that fails only if none does. -/
theorem fragment4_nomem_iff (e : Endian) (loc : Allocator) (ether : Mem) (sz : ℕ)
    (frags : List Fragment) (h : Accepted e ether sz frags) :
    (∀ i < frags.length, loc.FirstFails i →
      ∃ ops, fragment4Ops e loc ether sz frags = .ok (ops, none) ∧ FreedOnce loc i ops) ∧
    ((∀ i < frags.length, loc.FirstFails i →
      ∃ ops, fragment4Ops e loc ether sz frags = .ok (ops, none) ∧ .setData none ∉ ops ∧
      FreedOnce loc i ops) ↔
      ∀ i < frags.length, (loc.next i).isSome) := by
  have hfree : ∀ i p, .free p ∉ allocOps loc 0 i ++ [.alloc none, .setData none] := by
    simp [allocOps]
  refine ⟨fun i hlt hi => ⟨_, fragment4Ops_nomem h hi hlt, ?_⟩, fun hclean => ?_,
    fun hsome i hlt hi => ?_⟩
  · rw [← append_assoc]
    exact freedOnce_unwind hi (hfree i)
  · intro i hlt
    by_contra hnone
    -- the least index at which a call fails is the first
    have hex : ∃ i, loc.next i = none := ⟨i, Option.not_isSome_iff_eq_none.mp hnone⟩
    have hle : Nat.find hex ≤ i := Nat.find_min' hex (Option.not_isSome_iff_eq_none.mp hnone)
    have hfirst : loc.FirstFails (Nat.find hex) :=
      ⟨Nat.find_spec hex, fun j hj => Option.isSome_iff_ne_none.mpr (Nat.find_min hex hj)⟩
    obtain ⟨ops, hops, hnull, -⟩ := hclean _ (hle.trans_lt hlt) hfirst
    rw [fragment4Ops_nomem h hfirst (hle.trans_lt hlt), Except.ok.injEq, Prod.mk.injEq] at hops
    apply hnull
    rw [← hops.1]
    simp
  · have := hsome i hlt
    rw [hi.1] at this
    exact absurd this Bool.false_ne_true

/-- An allocator that fails from call `n` on. -/
def sampleAllocator (n : ℕ) : Allocator where
  next i := if i < n then some (i, ⟨.uplink, 0, fun _ => 0⟩) else none
  distinct i j p q hp hq hpq := by
    rw [Option.ite_none_right_eq_some] at hp hq
    rw [← Option.some.inj hp.2, ← Option.some.inj hq.2] at hpq
    exact hpq

theorem sampleFrame_accepted : Accepted .little sampleFrame 50 [⟨8, 8, none⟩, ⟨0, 8, none⟩] :=
  ⟨sampleFrame_canonical.frame, by decide⟩

/-- Two packets for two descriptors. -/
theorem fragment4_nomem_iff_sampleFrame :
    Accepted .little sampleFrame 50 [⟨8, 8, none⟩, ⟨0, 8, none⟩] ∧
      ∀ i < 2, (sampleAllocator 2).FirstFails i → ∃ ops,
        fragment4Ops .little (sampleAllocator 2) sampleFrame 50 [⟨8, 8, none⟩, ⟨0, 8, none⟩] =
          .ok (ops, none) ∧
        .setData none ∉ ops ∧ FreedOnce (sampleAllocator 2) i ops :=
  ⟨sampleFrame_accepted,
    (fragment4_nomem_iff .little (sampleAllocator 2) sampleFrame 50 _ sampleFrame_accepted).2.mpr
      (by decide)⟩

/-- The second of two allocations fails: the first packet is freed, after a store through `NULL`. -/
theorem null_store_before_test :
    Accepted .little sampleFrame 50 [⟨8, 8, none⟩, ⟨0, 8, none⟩] ∧
      (sampleAllocator 1).FirstFails 1 ∧
      fragment4Ops .little (sampleAllocator 1) sampleFrame 50 [⟨8, 8, none⟩, ⟨0, 8, none⟩] =
        .ok ([.alloc (some 0), .setData (some 0), .alloc none, .setData none,
          .free (some 0)], none) := by
  have hfirst : (sampleAllocator 1).FirstFails 1 := ⟨rfl, by decide⟩
  exact ⟨sampleFrame_accepted, hfirst, fragment4Ops_nomem sampleFrame_accepted hfirst (by decide)⟩

end Pptk.Ipfrag
