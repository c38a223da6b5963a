import Pptk.Iphash.Network
import Pptk.Lib.TokenBucket
import Mathlib.Data.List.Range
import Mathlib.Data.List.Nodup

/-!
# Rate limiter: token buckets

At each of the three widths the table is an array of token buckets.

Main result: `ip_hash_token_buckets`.
-/

namespace Pptk.Iphash

open Lib Function List

/-! ## One bucket -/

section Bucket

variable {w : ℕ} {initialTokens timerAdd : UInt32} {tokens : BitVec w}

theorem toNat_one (h : 1 < 2 ^ w) : (1 : BitVec w).toNat = 1 := by
  rw [BitVec.ofNat_eq_ofNat, BitVec.toNat_ofNat]
  exact Nat.mod_eq_of_lt h

theorem takeToken_eq (tokens : BitVec w) :
    (takeToken tokens).1.toNat = tokens.toNat - 1 ∧
      (takeToken tokens).2 = decide (tokens.toNat ≠ 0) := by
  unfold takeToken
  by_cases h : tokens = 0
  · subst h
    simp
  · have hne : tokens.toNat ≠ 0 := fun hzero => h (BitVec.eq_of_toNat_eq (by simpa using hzero))
    have hlt := tokens.isLt
    have hone := toNat_one (w := w) (by omega)
    rw [if_neg h]
    refine ⟨?_, by simpa using hne⟩
    rw [BitVec.toNat_sub_of_le (BitVec.le_def.mpr (by omega)), hone]

theorem toNat_giveToken (hfits : initialTokens.toNat < 2 ^ w) :
    (giveToken initialTokens tokens).toNat =
      if initialTokens.toNat ≤ tokens.toNat then tokens.toNat else tokens.toNat + 1 := by
  unfold giveToken
  by_cases h : initialTokens.toNat ≤ tokens.toNat
  · rw [if_pos h, if_pos h]
  · rw [if_neg h, if_neg h, BitVec.toNat_add, toNat_one (by omega)]
    exact Nat.mod_eq_of_lt (by omega)

theorem toNat_refillToken (hw : w ≤ 32) (hle : tokens.toNat ≤ initialTokens.toNat)
    (hfits : initialTokens.toNat < 2 ^ w) (hsum : initialTokens.toNat + timerAdd.toNat < 2 ^ 32) :
    (refillToken initialTokens timerAdd tokens).toNat = min initialTokens.toNat
      (tokens.toNat + timerAdd.toNat) := by
  have hadd : (tokens.setWidth 32 + timerAdd.toBitVec).toNat = tokens.toNat + timerAdd.toNat := by
    rw [BitVec.toNat_add, BitVec.toNat_setWidth_of_le hw]
    exact Nat.mod_eq_of_lt (by show _ + timerAdd.toNat < _; omega)
  unfold refillToken
  dsimp only
  split_ifs with h
  · have hfull : initialTokens.toNat ≤ tokens.toNat + timerAdd.toNat := hadd ▸ BitVec.le_def.mp h
    rw [BitVec.toNat_setWidth, Nat.min_eq_left hfull]
    exact Nat.mod_eq_of_lt hfits
  · have hfull : tokens.toNat + timerAdd.toNat < initialTokens.toNat := by
      rw [← hadd]
      exact Nat.lt_of_not_le fun hle => h (BitVec.le_def.mpr hle)
    rw [BitVec.toNat_setWidth, hadd, Nat.min_eq_right (by omega)]
    exact Nat.mod_eq_of_lt (by omega)

end Bucket

/-! ## Width and batches -/

section Params

variable {p : IpHashParams}

theorem entryWidth_le (p : IpHashParams) : entryWidth p ≤ 32 := by
  unfold entryWidth
  split_ifs <;> omega

theorem initialTokens_lt (p : IpHashParams) : p.initialTokens.toNat < 2 ^ entryWidth p := by
  unfold entryWidth
  split_ifs with htiny hsmall
  · have h : p.initialTokens.toNat ≤ 255 := UInt32.le_iff_toNat_le.mp (of_decide_eq_true htiny)
    omega
  · have h : p.initialTokens.toNat ≤ 65535 :=
      UInt32.le_iff_toNat_le.mp (of_decide_eq_true (Bool.and_eq_true_iff.mp hsmall).1)
    omega
  · exact p.initialTokens.toNat_lt

theorem Accepted.batchSize_pos (h : Accepted p) : 0 < p.batchSize.toNat := by
  obtain ⟨-, hpow, -⟩ := h
  unfold powerOf2 at hpow
  simp only [gt_iff_lt, Bool.and_eq_true, decide_eq_true_eq, beq_iff_eq] at hpow
  exact hpow.1

theorem Accepted.timercnt_mul (h : Accepted p) :
    p.batchSize.toNat * timercnt p = p.hashSize.toNat := by
  obtain ⟨k, hk⟩ := h.hashSize_eq
  obtain ⟨l, hl⟩ : ∃ l, p.batchSize.toNat = 2 ^ l := by
    obtain ⟨-, hpow, -⟩ := h
    unfold powerOf2 at hpow
    simp only [gt_iff_lt, Bool.and_eq_true, decide_eq_true_eq, beq_iff_eq] at hpow
    exact exists_two_pow_of_and_sub_one hpow.1 hpow.2
  have hle : 2 ^ l ≤ 2 ^ k := by
    rw [← hk, ← hl]
    exact UInt32.le_iff_toNat_le.mp h.2.2
  have hdvd : 2 ^ l ∣ 2 ^ k := Nat.pow_dvd_pow 2 ((Nat.pow_le_pow_iff_right (by omega)).mp hle)
  rw [timercnt, hk, hl]
  exact Nat.mul_div_cancel' hdvd

theorem Accepted.batchEnd_le (h : Accepted p) {k : ℕ} (hk : k < timercnt p) :
    batchEnd p k ≤ p.hashSize.toNat := by
  rw [← h.timercnt_mul]
  exact Nat.mul_le_mul_left _ hk

/-- The bucket is in the batch. -/
def inBatch (p : IpHashParams) (k i : ℕ) :
    Bool := decide (batchStart p k ≤ i) && decide (i < batchEnd p k)

theorem Accepted.inBatch_iff (h : Accepted p) (k i : ℕ) :
    inBatch p k i = true ↔ k = i / p.batchSize.toNat := by
  have hpos := h.batchSize_pos
  unfold inBatch batchStart batchEnd
  simp only [Bool.and_eq_true, decide_eq_true_eq]
  rw [eq_comm, Nat.div_eq_iff hpos]
  constructor
  · rintro ⟨hlow, hhigh⟩
    rw [Nat.mul_add_one] at hhigh
    rw [Nat.mul_comm] at hlow hhigh
    omega
  · rintro ⟨hlow, hhigh⟩
    rw [Nat.mul_add_one, Nat.mul_comm]
    omega

theorem Accepted.countP_inBatch (h : Accepted p) {order : List ℕ}
    (horder : order.Perm (range (timercnt p))) {i : ℕ} (hi : i < p.hashSize.toNat) :
    (order.map (inBatch p)).countP (· i) = 1 := by
  have hmem : i / p.batchSize.toNat ∈ range (timercnt p) := by
    rw [mem_range, Nat.div_lt_iff_lt_mul h.batchSize_pos, Nat.mul_comm, h.timercnt_mul]
    exact hi
  have hcongr : ∀ k ∈ range (timercnt p), inBatch p k i = true ↔
    (k == i / p.batchSize.toNat) = true := by
    intro k _
    rw [h.inBatch_iff, beq_iff_eq]
  rw [countP_map]
  refine (horder.countP_eq _).trans ?_
  refine (countP_congr hcongr).trans ?_
  exact count_eq_one_of_mem nodup_range hmem

end Params

/-! ## Table -/

section Table

variable {p : IpHashParams}

/-- The loop of a batch timer refills the buckets of its batch. -/
theorem IpHash.refillLoop_eq (h : IpHash p) {i n : ℕ} (hle : i + n ≤ p.hashSize.toNat) :
    ∃ h', h.refillLoop i n = some h' ∧ ∀ j, h'.entries j =
      if i ≤ j ∧ j < i + n then refillToken p.initialTokens p.timerAdd (h.entries j)
        else h.entries j := by
  induction n generalizing h i with
  | zero => exact ⟨h, rfl, fun j => by rw [if_neg (by omega)]⟩
  | succ n ih =>
    obtain ⟨h', hloop, hentries⟩ :=
      ih (h.setEntry i (refillToken p.initialTokens p.timerAdd (h.entries i))) (i := i + 1)
        (by omega)
    refine ⟨h', ?_, fun j => ?_⟩
    · rw [IpHash.refillLoop, if_pos (by omega), hloop]
    · rw [hentries]
      unfold IpHash.setEntry
      dsimp only
      rcases eq_or_ne j i with rfl | hj
      · rw [if_neg (by omega), if_pos (by omega), update_self]
      · rw [update_of_ne hj]
        congr 1
        apply propext
        omega

/-- The table holds the tokens of the buckets. -/
structure Holds (h : IpHash p) (b : ℕ → ℕ) : Prop where
  tokens : ∀ i < p.hashSize.toNat, (h.entries i).toNat = b i
  le : ∀ i, b i ≤ p.initialTokens.toNat

theorem Holds.init (p : IpHashParams) (timers : ℕ → UInt64) :
    Holds (p := p) ⟨fun _ => p.initialTokens.toBitVec.setWidth (entryWidth p), timers⟩
      fun _ => p.initialTokens.toNat := by
  refine ⟨fun i _ => ?_, fun _ => Nat.le_refl _⟩
  rw [BitVec.toNat_setWidth]
  exact Nat.mod_eq_of_lt (initialTokens_lt p)

theorem Holds.setEntry {h : IpHash p} {b : ℕ → ℕ} (hb : Holds h b) (v : ℕ) {n : ℕ}
    {t : BitVec (entryWidth p)} (ht : t.toNat = n) (hn : n ≤ p.initialTokens.toNat) :
    Holds (h.setEntry v t) (update b v n) := by
  constructor
  · intro i hi
    rcases eq_or_ne i v with rfl | hne
    · simp only [IpHash.setEntry, update_self]
      exact ht
    · simp only [IpHash.setEntry, update_of_ne hne]
      exact hb.tokens i hi
  · intro i
    rcases eq_or_ne i v with rfl | hne
    · rw [update_self]
      exact hn
    · rw [update_of_ne hne]
      exact hb.le i

variable {h : IpHash p} {b : ℕ → ℕ}

theorem permittedAt_refines (hb : Holds h b) {v : ℕ} (hv : v < p.hashSize.toNat) : ∃ h',
    h.permittedAt v = some
      (h', ((BucketOp.take v).apply p.initialTokens.toNat p.timerAdd.toNat b).2) ∧
      Holds h' ((BucketOp.take v).apply p.initialTokens.toNat p.timerAdd.toNat b).1 := by
  obtain ⟨htake, hyes⟩ := takeToken_eq (h.entries v)
  rw [hb.tokens v hv] at htake hyes
  refine ⟨h.setEntry v (takeToken (h.entries v)).1, ?_, ?_⟩
  · rw [IpHash.permittedAt, if_pos hv]
    dsimp only
    rw [hyes, BucketOp.apply]
    by_cases hzero : b v = 0
    · simp [hzero]
    · simp [hzero]
  · have hset := hb.setEntry v htake ((Nat.sub_le _ _).trans (hb.le v))
    rw [BucketOp.apply]
    split_ifs with hzero
    · rwa [hzero, Nat.zero_sub, ← hzero, update_eq_self] at hset
    · exact hset

theorem incrementAt_refines (hb : Holds h b) {v : ℕ} (hv : v < p.hashSize.toNat) : ∃ h',
    h.incrementAt v = some
      (h', ((BucketOp.give v).apply p.initialTokens.toNat p.timerAdd.toNat b).2) ∧
      Holds h' ((BucketOp.give v).apply p.initialTokens.toNat p.timerAdd.toNat b).1 := by
  have hle := hb.le v
  have hgive : (giveToken p.initialTokens (h.entries v)).toNat = _ :=
    toNat_giveToken (initialTokens_lt p)
  rw [hb.tokens v hv] at hgive
  refine ⟨_, by rw [IpHash.incrementAt, if_pos hv]; rfl, ?_⟩
  rw [BucketOp.apply]
  dsimp only
  split_ifs at hgive ⊢ with hfull
  · have hset := hb.setEntry v hgive hle
    rwa [update_eq_self] at hset
  · exact hb.setEntry v hgive (by omega)

theorem batchTimerFn_refines (hp : Accepted p)
    (hsum : p.initialTokens.toNat + p.timerAdd.toNat < 2 ^ 32) (hb : Holds h b) {k : ℕ}
    (hk : k < timercnt p) : ∃ h',
    h.batchTimerFn k =
      some (h', ((BucketOp.refill (inBatch p k)).apply p.initialTokens.toNat p.timerAdd.toNat b).2)
        ∧
      Holds h' ((BucketOp.refill (inBatch p k)).apply p.initialTokens.toNat p.timerAdd.toNat
        b).1 := by
  have hsize : batchStart p k + (batchEnd p k - batchStart p k) = batchEnd p k := by
    have : batchStart p k ≤ batchEnd p k := Nat.mul_le_mul_left _ (by omega)
    omega
  obtain ⟨h', hloop, hentries⟩ := h.refillLoop_eq (hsize ▸ hp.batchEnd_le hk)
  refine ⟨_, by rw [IpHash.batchTimerFn, hloop]; rfl, ?_, BucketOp.apply_le hb.le _⟩
  intro i hi
  dsimp only
  rw [hentries, hsize, BucketOp.apply]
  dsimp only
  have hcond : inBatch p k i = true ↔ batchStart p k ≤ i ∧ i < batchEnd p k := by
    simp [inBatch]
  by_cases hin : batchStart p k ≤ i ∧ i < batchEnd p k
  · rw [if_pos hin, if_pos (hcond.mpr hin), ← hb.tokens i hi]
    refine toNat_refillToken (entryWidth_le p) ?_ (initialTokens_lt p) hsum
    rw [hb.tokens i hi]
    exact hb.le i
  · rw [if_neg hin, if_neg (fun h => hin (hcond.mp h))]
    exact hb.tokens i hi

end Table

/-! ## Calls -/

section Calls

variable (siphash64 : UInt64 → UInt64) (siphashBuf : (Fin 16 → UInt8) → UInt64) (p : IpHashParams)

/-- What a call should do: the bucket is chosen by the hash of the first bits of the address. -/
def IpHashCall.op : IpHashCall → BucketOp ℕ
  | permitted srcIp bits =>
    .take ((siphash64 (firstBits bits.toNat srcIp).toUInt64).toNat % p.hashSize.toNat)
  | permitted6 srcIp bits =>
    .take ((siphashBuf (firstBits6 bits.toNat srcIp)).toNat % p.hashSize.toNat)
  | incrementOne srcIp bits =>
    .give ((siphash64 (firstBits bits.toNat srcIp).toUInt64).toNat % p.hashSize.toNat)
  | incrementOne6 srcIp bits =>
    .give ((siphashBuf (firstBits6 bits.toNat srcIp)).toNat % p.hashSize.toNat)
  | batch k => .refill (inBatch p k)

/-- The prefix lengths are at least 1 and at most the length of an address, and there is such a
timer. -/
def IpHashCall.Valid : IpHashCall → Prop
  | permitted _ bits => 1 ≤ bits.toNat ∧ bits.toNat ≤ 32
  | permitted6 _ bits => 1 ≤ bits.toNat ∧ bits.toNat ≤ 128
  | incrementOne _ bits => 1 ≤ bits.toNat ∧ bits.toNat ≤ 32
  | incrementOne6 _ bits => 1 ≤ bits.toNat ∧ bits.toNat ≤ 128
  | batch k => k < timercnt p

variable {p}

/-- Every call does to the table what it should do to token buckets. -/
theorem call_refines (hp : Accepted p) (hsum : p.initialTokens.toNat + p.timerAdd.toNat < 2 ^ 32)
    (h : IpHash p) (b : ℕ → ℕ) (c : IpHashCall) (hb : Holds h b) (hc : c.Valid p) : ∃ h',
    h.call siphash64 siphashBuf c =
      some (h', ((c.op siphash64 siphashBuf p).apply p.initialTokens.toNat p.timerAdd.toNat b).2) ∧
      Holds h' ((c.op siphash64 siphashBuf p).apply p.initialTokens.toNat p.timerAdd.toNat
        b).1 := by
  cases c with
  | permitted srcIp bits =>
    rw [IpHash.call, IpHash.ipPermitted, ipNetwork_eq hc.1 hc.2, IpHashCall.op, ← hashIndex_eq hp]
    exact permittedAt_refines hb (hashIndex_lt hp _)
  | permitted6 srcIp bits =>
    rw [IpHash.call, IpHash.ipv6Permitted, ipv6Network_eq hc.1 hc.2, IpHashCall.op,
      ← hashIndex_eq hp]
    exact permittedAt_refines hb (hashIndex_lt hp _)
  | incrementOne srcIp bits =>
    rw [IpHash.call, IpHash.ipIncrementOne, ipNetwork_eq hc.1 hc.2, IpHashCall.op,
      ← hashIndex_eq hp]
    exact incrementAt_refines hb (hashIndex_lt hp _)
  | incrementOne6 srcIp bits =>
    rw [IpHash.call, IpHash.ipv6IncrementOne, ipv6Network_eq hc.1 hc.2, IpHashCall.op,
      ← hashIndex_eq hp]
    exact incrementAt_refines hb (hashIndex_lt hp _)
  | batch k => exact batchTimerFn_refines hp hsum hb hc

end Calls

/-- From `ip_hash_init` on, every sequence of calls gives the answers of an array of token buckets,
at whatever width it is kept, and a round of all batch timers, in any order, refills each bucket
once. -/
theorem ip_hash_token_buckets (siphash64 : UInt64 → UInt64) (siphashBuf : (Fin 16 → UInt8) → UInt64)
    (p : IpHashParams) (gettime64 : ℕ → UInt64) (h0 : IpHash p)
    (hinit : ipHashInit p gettime64 = some h0)
    (hsum : p.initialTokens.toNat + p.timerAdd.toNat < 2 ^ 32) (calls : List IpHashCall)
    (hcalls : ∀ c ∈ calls, c.Valid p) :
    ∃ h, runOut (IpHash.call siphash64 siphashBuf) h0 calls =
        some (h, (runAll (BucketOp.apply p.initialTokens.toNat p.timerAdd.toNat)
          (fun _ => p.initialTokens.toNat)
          (calls.map (IpHashCall.op siphash64 siphashBuf p))).2) ∧
      (∀ i < p.hashSize.toNat, (h.entries i).toNat =
        (runAll (BucketOp.apply p.initialTokens.toNat p.timerAdd.toNat)
          (fun _ => p.initialTokens.toNat)
          (calls.map (IpHashCall.op siphash64 siphashBuf p))).1 i) ∧
      ∀ order : List ℕ, order.Perm (range (timercnt p)) → ∃ h' outs,
        runOut (IpHash.call siphash64 siphashBuf) h (order.map .batch) = some (h', outs) ∧
        ∀ i < p.hashSize.toNat,
          (h'.entries i).toNat = min p.initialTokens.toNat
            ((h.entries i).toNat + p.timerAdd.toNat) := by
  unfold ipHashInit at hinit
  split_ifs at hinit with hp
  obtain rfl := Option.some.inj hinit
  have hstep := call_refines siphash64 siphashBuf hp hsum
  obtain ⟨h, hrun, hholds⟩ := runOut_refines hstep (Holds.init p _) hcalls
  refine ⟨h, hrun, hholds.tokens, fun order horder => ?_⟩
  have hbatches : ∀ c ∈ order.map IpHashCall.batch, c.Valid p := by
    intro c hc
    obtain ⟨k, hk, rfl⟩ := mem_map.mp hc
    exact mem_range.mp (horder.mem_iff.mp hk)
  obtain ⟨h', hround, hholds'⟩ := runOut_refines hstep hholds hbatches
  refine ⟨h', _, hround, fun i hi => ?_⟩
  rw [hholds'.tokens i hi, hholds.tokens i hi]
  have hops : (order.map IpHashCall.batch).map (IpHashCall.op siphash64 siphashBuf p) =
      (order.map (inBatch p)).map BucketOp.refill := by
    rw [map_map, map_map]
    rfl
  rw [hops]
  exact refills_once (hp.countP_inBatch horder hi)

/-- The three tokens of a network are taken, and after a refill there are tokens again. -/
theorem ip_hash_token_buckets_four :
    ∃ h0 h : IpHash fourBuckets, ipHashInit fourBuckets (fun _ => 0) = some h0 ∧
    runOut (IpHash.call id fun _ => 0) h0
      [.permitted 0x0A000001 8, .permitted 0x0A000002 8, .permitted 0x0A010203 8,
        .permitted 0x0A000001 8, .batch 0, .permitted 0x0A000001 8] =
      some (h, [some true, some true, some true, some false, none, some true]) := by
  obtain ⟨h, hrun, -⟩ :=
    ip_hash_token_buckets id (fun _ => 0) fourBuckets (fun _ => 0) _ rfl (by decide)
    [.permitted 0x0A000001 8, .permitted 0x0A000002 8, .permitted 0x0A010203 8,
      .permitted 0x0A000001 8, .batch 0,
      .permitted 0x0A000001 8] (by simp [IpHashCall.Valid, timercnt, fourBuckets])
  exact ⟨_, h, rfl, hrun⟩

end Pptk.Iphash
