import Pptk.Lib.Machine
import Mathlib.Algebra.Group.Nat.Defs
import Mathlib.Data.Int.Notation
import Mathlib.Data.List.Basic
import Mathlib.Logic.Function.Basic

/-!
# Rate limiter

Model of `iphash/iphash.c`: a table of token buckets, one of which is chosen by a hash of the first
bits of an address. The buckets are 8, 16 or 32 bits wide, after `initial_tokens`. The functions
have the same code three times, for the three widths; here they are written once, for a width `w`.

* An access outside of the table, or outside of the scratch address `src_net`, is `none`, and so is
  an undefined shift.
* The hash functions `siphash64` and `siphash_buf` with the seed are parameters.
* `malloc` succeeds. Locks and the heap of timers are left out; a timer keeps its time.
-/

namespace Pptk.Iphash

/-! ## Table -/

/-- The fields of `struct ip_hash` that the caller sets (iphash.h:29-33). -/
structure IpHashParams where
  initialTokens : UInt32
  timerPeriod : UInt32
  timerAdd : UInt32
  hashSize : UInt32
  batchSize : UInt32

/-- `use_small` (iphash.h:53-56). -/
def useSmall (p : IpHashParams) : Bool := p.initialTokens ≤ 65535 && p.initialTokens ≥ 256

/-- `use_tiny` (iphash.h:58-61). -/
def useTiny (p : IpHashParams) : Bool := p.initialTokens ≤ 255

/-- The width of a bucket: that of `struct ip_hash_entry_tiny`, `struct ip_hash_entry_small` or
`struct ip_hash_entry`. -/
def entryWidth (p : IpHashParams) : ℕ := if useTiny p then 8 else if useSmall p then 16 else 32

/-- `power_of_2` (iphash.c:20-23). -/
def powerOf2 (x : ℕ) : Bool := x > 0 && (x &&& (x - 1)) == 0

/-- The condition under which `ip_hash_init` does not abort (iphash.c:30-34). -/
def Accepted (p : IpHashParams) : Prop :=
  powerOf2 p.hashSize.toNat = true ∧ powerOf2 p.batchSize.toNat = true ∧ p.batchSize ≤ p.hashSize

instance (p : IpHashParams) : Decidable (Accepted p) := inferInstanceAs (Decidable (_ ∧ _ ∧ _))

/-- The number of batch timers (iphash.c:29). -/
def timercnt (p : IpHashParams) : ℕ := p.hashSize.toNat / p.batchSize.toNat

/-- `timerud[i].start` (iphash.c:40). -/
def batchStart (p : IpHashParams) (i : ℕ) : ℕ := p.batchSize.toNat * i

/-- `timerud[i].end` (iphash.c:41). -/
def batchEnd (p : IpHashParams) (i : ℕ) : ℕ := p.batchSize.toNat * (i + 1)

/-- The buckets and the times of the timers. -/
structure IpHash (p : IpHashParams) where
  entries : ℕ → BitVec (entryWidth p)
  timers : ℕ → UInt64

/-- `ip_hash_init` (iphash.c:25-76). The `i`-th timer is added at `gettime64 i`. -/
def ipHashInit (p : IpHashParams) (gettime64 : ℕ → UInt64) : Option (IpHash p) :=
  if Accepted p then
    some ⟨fun _ => p.initialTokens.toBitVec.setWidth (entryWidth p),
      fun i => gettime64 i + UInt64.ofNat (p.timerPeriod.toNat * i / timercnt p)⟩
  else none

/-! ## Prefix of an address -/

/-- `1U<<n`, which is defined if `n` is less than the width. -/
def oneShiftLeft (n : ℤ) : Option UInt32 :=
  if 0 ≤ n ∧ n < 32 then some (1 <<< UInt32.ofNat n.toNat) else none

/-- `network` of `ip_permitted` and `ip_increment_one` (iphash.c:160-161, 251-252). -/
def ipNetwork (srcIp : UInt32) (bits : UInt8) : Option UInt32 :=
  (oneShiftLeft (32 - bits.toNat)).map fun one => srcIp &&& (~~~(one - 1) &&& 0xFFFFFFFF)

/-- `src_net` of `ipv6_permitted` and `ipv6_increment_one` (iphash.c:111-119, 202-210). The index of
the byte of which some bits are cleared is a `size_t`. -/
def ipv6Network (srcIp : Fin 16 → UInt8) (bits : UInt8) : Option (Fin 16 → UInt8) :=
  let toset := (128 - bits.toUInt32).toNat / 8
  let tomask := (128 - bits.toUInt32).toNat % 8
  -- the bytes that are set begin before the scratch address
  if 16 < toset then none
  else
    let net : Fin 16 → UInt8 := fun i => if 16 - toset ≤ i then 0 else srcIp i
    let last := (16 + 2 ^ 64 - toset - 1) % 2 ^ 64
    if h : last < 16 then
      some (Function.update net ⟨last, h⟩
        (net ⟨last, h⟩ &&& (~~~((1 <<< UInt32.ofNat tomask) - 1 : UInt32)).toUInt8))
    else none

/-! ## Buckets -/

section Buckets

variable {p : IpHashParams} {w : ℕ}

/-- A token is taken (iphash.c:126-131, 137-142, 148-153, 168-173, 179-184, 190-195). -/
def takeToken (tokens : BitVec w) :
    BitVec w × Bool := if tokens = 0 then (tokens, false) else (tokens - 1, true)

/-- A token is given back (iphash.c:217-222, 228-233, 239-244, 259-264, 270-275, 281-286). -/
def giveToken (initialTokens : UInt32) (tokens : BitVec w) : BitVec w :=
  if tokens.toNat ≥ initialTokens.toNat then tokens else tokens + 1

/-- A bucket is refilled (iphash.c:308-313, 322-327, 336-341); the sum is a `uint32_t`. -/
def refillToken (initialTokens timerAdd : UInt32) (entry : BitVec w) : BitVec w :=
  let tokens := entry.setWidth 32 + timerAdd.toBitVec
  if tokens ≥ initialTokens.toBitVec then initialTokens.toBitVec.setWidth w else tokens.setWidth w

/-- The entry at an index is replaced. -/
def IpHash.setEntry (h : IpHash p) (i : ℕ) (tokens : BitVec (entryWidth p)) : IpHash p :=
  { h with entries := Function.update h.entries i tokens }

/-- `ip_permitted` and `ipv6_permitted` after the hash (iphash.c:122-154, 164-196). -/
def IpHash.permittedAt (h : IpHash p) (hashval : ℕ) : Option (IpHash p × Option Bool) :=
  if hashval < p.hashSize.toNat then
    let r := takeToken (h.entries hashval)
    some (h.setEntry hashval r.1, some r.2)
  else none

/-- `ip_increment_one` and `ipv6_increment_one` after the hash (iphash.c:213-245, 255-287). -/
def IpHash.incrementAt (h : IpHash p) (hashval : ℕ) : Option (IpHash p × Option Bool) :=
  if hashval < p.hashSize.toNat then
    some (h.setEntry hashval (giveToken p.initialTokens (h.entries hashval)), none)
  else none

/-- The index in the table for a hash (iphash.c:120, 162, 211, 253): a `uint32_t`. -/
def hashIndex (p : IpHashParams) (hash : UInt64) :
    ℕ := (hash &&& (p.hashSize - 1).toUInt64).toUInt32.toNat

/-- The loop of `batch_timer_fn` (iphash.c:305-314, 319-328, 333-342), with `n` entries to go from
`i`. -/
def IpHash.refillLoop (h : IpHash p) : ℕ → ℕ → Option (IpHash p)
  | _, 0 => some h
  | i, n + 1 =>
    if i < p.hashSize.toNat then
      (h.setEntry i (refillToken p.initialTokens p.timerAdd (h.entries i))).refillLoop (i + 1) n
    else none

/-- `batch_timer_fn` of the `k`-th timer (iphash.c:290-350). -/
def IpHash.batchTimerFn (h : IpHash p) (k : ℕ) : Option (IpHash p × Option Bool) :=
  (h.refillLoop (batchStart p k) (batchEnd p k - batchStart p k)).map fun h' =>
    (⟨h'.entries, Function.update h'.timers k (h'.timers k + p.timerPeriod.toUInt64)⟩, none)

end Buckets

/-! ## Calls -/

section Calls

variable (siphash64 : UInt64 → UInt64) (siphashBuf : (Fin 16 → UInt8) → UInt64) {p : IpHashParams}

/-- `ip_permitted` (iphash.c:157-197). -/
def IpHash.ipPermitted (h : IpHash p) (srcIp : UInt32) (bits : UInt8) :
    Option (IpHash p × Option Bool) :=
  (ipNetwork srcIp bits).bind fun network =>
    h.permittedAt (hashIndex p (siphash64 network.toUInt64))

/-- `ipv6_permitted` (iphash.c:108-155). -/
def IpHash.ipv6Permitted (h : IpHash p) (srcIp : Fin 16 → UInt8) (bits : UInt8) :
    Option (IpHash p × Option Bool) :=
  (ipv6Network srcIp bits).bind fun srcNet => h.permittedAt (hashIndex p (siphashBuf srcNet))

/-- `ip_increment_one` (iphash.c:248-288). -/
def IpHash.ipIncrementOne (h : IpHash p) (srcIp : UInt32) (bits : UInt8) :
    Option (IpHash p × Option Bool) :=
  (ipNetwork srcIp bits).bind fun network =>
    h.incrementAt (hashIndex p (siphash64 network.toUInt64))

/-- `ipv6_increment_one` (iphash.c:199-246). -/
def IpHash.ipv6IncrementOne (h : IpHash p) (srcIp : Fin 16 → UInt8) (bits : UInt8) :
    Option (IpHash p × Option Bool) :=
  (ipv6Network srcIp bits).bind fun srcNet => h.incrementAt (hashIndex p (siphashBuf srcNet))

/-- A call of one of the functions. -/
inductive IpHashCall where
  | permitted (srcIp : UInt32) (bits : UInt8)
  | permitted6 (srcIp : Fin 16 → UInt8) (bits : UInt8)
  | incrementOne (srcIp : UInt32) (bits : UInt8)
  | incrementOne6 (srcIp : Fin 16 → UInt8) (bits : UInt8)
  | batch (k : ℕ)

/-- The table after a call, and what it returns. -/
def IpHash.call (h : IpHash p) : IpHashCall → Option (IpHash p × Option Bool)
  | .permitted srcIp bits => h.ipPermitted siphash64 srcIp bits
  | .permitted6 srcIp bits => h.ipv6Permitted siphashBuf srcIp bits
  | .incrementOne srcIp bits => h.ipIncrementOne siphash64 srcIp bits
  | .incrementOne6 srcIp bits => h.ipv6IncrementOne siphashBuf srcIp bits
  | .batch k => h.batchTimerFn k

end Calls

end Pptk.Iphash
