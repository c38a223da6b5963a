import Pptk.Iphash.Iphash
import Pptk.Lib.Bits

/-!
# The network of an address

The bucket of an address is that of its network, the address with all bits but the first `bits`
cleared.

Main result: `bucket_per_network_iff`.
-/

namespace Pptk.Iphash

open Lib

/-! ## Network -/

/-- The first bits of an IPv4 address. -/
def firstBits (bits : ℕ) (a : UInt32) :
    UInt32 := UInt32.ofNat (a.toNat / 2 ^ (32 - bits) * 2 ^ (32 - bits))

/-- The number of bits of the `i`-th byte that are not among the first `bits` bits. -/
def restBits (bits i : ℕ) : ℕ := 8 - min 8 (bits - 8 * i)

/-- A byte with its lowest `n` bits cleared. -/
def clearLow (n : ℕ) (x : UInt8) : UInt8 := UInt8.ofNat (x.toNat / 2 ^ n * 2 ^ n)

/-- The first bits of an IPv6 address. -/
def firstBits6 (bits : ℕ) (a : Fin 16 → UInt8) :
    Fin 16 → UInt8 := fun i => clearLow (restBits bits i) (a i)

theorem toNat_mask {n : ℕ} (hn : n < 32) :
    (~~~((1 : UInt32) <<< UInt32.ofNat n - 1)).toNat = 2 ^ 32 - 2 ^ n := by
  have hpow : 2 ^ n < 2 ^ 32 := Nat.pow_lt_pow_right (by omega) hn
  have hpos : 1 ≤ 2 ^ n := Nat.one_le_two_pow
  have hmod : n % 4294967296 = n := Nat.mod_eq_of_lt (by omega)
  have hone : ((1 : UInt32) <<< UInt32.ofNat n).toNat = 2 ^ n := by
    rw [UInt32.toNat_shiftLeft, UInt32.toNat_ofNat', UInt32.toNat_one, hmod, Nat.mod_eq_of_lt hn,
      Nat.one_shiftLeft]
    exact Nat.mod_eq_of_lt hpow
  rw [UInt32.toNat_not,
    UInt32.toNat_sub_of_le _ _ (by rw [UInt32.le_iff_toNat_le, hone]; exact hpos), hone]
  have : UInt32.size = 2 ^ 32 := rfl
  rw [UInt32.toNat_one]
  omega

/-- The network of an IPv4 address is computed right, if `bits` is at least 1. -/
theorem ipNetwork_eq {bits : UInt8} (hpos : 1 ≤ bits.toNat) (hle : bits.toNat ≤ 32) (a : UInt32) :
    ipNetwork a bits = some (firstBits bits.toNat a) := by
  have hshift : oneShiftLeft (32 - bits.toNat) = some (1 <<< UInt32.ofNat (32 - bits.toNat)) := by
    unfold oneShiftLeft
    rw [if_pos (by omega)]
    congr 3
    omega
  rw [ipNetwork, hshift, Option.map_some, firstBits]
  congr 1
  apply UInt32.toNat_inj.mp
  have ha : a.toNat < 2 ^ 32 := a.toNat_lt
  have hall : (4294967295 : UInt32).toNat = 2 ^ 32 - 1 := rfl
  rw [UInt32.toNat_and, UInt32.toNat_and, toNat_mask (by omega), hall,
    Nat.and_two_pow_sub_one_eq_mod,
    Nat.mod_eq_of_lt (Nat.sub_lt (by omega) (Nat.two_pow_pos _)), and_highMask (by omega) ha,
    UInt32.toNat_ofNat']
  exact (Nat.mod_eq_of_lt (lt_of_le_of_lt (Nat.div_mul_le_self _ _) ha)).symm

theorem ipNetwork_zero (a : UInt32) : ipNetwork a 0 = none := rfl

theorem toNat_byteMask :
    ∀ n < 8, (~~~((1 : UInt32) <<< UInt32.ofNat n - 1)).toUInt8.toNat = 2 ^ 8 - 2 ^ n := by
  decide

theorem and_byteMask {n : ℕ} (hn : n < 8) (x : UInt8) :
    x &&& (~~~((1 : UInt32) <<< UInt32.ofNat n - 1)).toUInt8 = clearLow n x := by
  apply UInt8.toNat_inj.mp
  have hx : x.toNat < 2 ^ 8 := x.toNat_lt
  rw [UInt8.toNat_and, toNat_byteMask n hn, and_highMask (by omega) hx, clearLow,
    UInt8.toNat_ofNat']
  exact (Nat.mod_eq_of_lt (lt_of_le_of_lt (Nat.div_mul_le_self _ _) hx)).symm

theorem clearLow_zero (x : UInt8) : clearLow 0 x = x := by
  simp [clearLow]

theorem clearLow_eight (x : UInt8) : clearLow 8 x = 0 := by
  have hx : x.toNat < 2 ^ 8 := x.toNat_lt
  rw [clearLow, Nat.div_eq_of_lt hx]
  rfl

/-- The network of an IPv6 address is computed right, if `bits` is at least 1. -/
theorem ipv6Network_eq {bits : UInt8} (hpos : 1 ≤ bits.toNat) (hle : bits.toNat ≤ 128)
    (a : Fin 16 → UInt8) : ipv6Network a bits = some (firstBits6 bits.toNat a) := by
  have hsub : (128 - bits.toUInt32).toNat = 128 - bits.toNat := by
    rw [UInt32.toNat_sub_of_le]
    · simp
    · rw [UInt32.le_iff_toNat_le]
      simpa using hle
  have hlast : (16 + 2 ^ 64 - (128 - bits.toNat) / 8 - 1) % 2 ^ 64 =
    16 - (128 - bits.toNat) / 8 - 1 := by omega
  unfold ipv6Network
  dsimp only
  rw [if_neg (by omega), dif_pos (by omega)]
  congr 1
  funext i
  rw [Function.update_apply, firstBits6]
  by_cases hi : i.val = 16 - (128 - bits.toNat) / 8 - 1
  · -- the byte in which the first bits end
    have hrest : restBits bits.toNat i = (128 - bits.toUInt32).toNat % 8 := by
      unfold restBits
      omega
    rw [hrest, if_pos (Fin.ext (by dsimp only; omega)), if_neg (by omega),
      and_byteMask (Nat.mod_lt _ (by omega))]
    congr 2
    exact Fin.ext (by dsimp only; omega)
  · rw [if_neg (fun h => hi (by rw [h]; dsimp only; omega))]
    split_ifs with hcleared
    · have hrest : restBits bits.toNat i = 8 := by
        unfold restBits
        omega
      rw [hrest, clearLow_eight]
    · have hrest : restBits bits.toNat i = 0 := by
        unfold restBits
        omega
      rw [hrest, clearLow_zero]

theorem ipv6Network_zero (a : Fin 16 → UInt8) : ipv6Network a 0 = none := rfl

/-! ## Addresses that agree -/

/-- The addresses agree in their first bits. -/
def Agree (bits : ℕ) (a b : UInt32) :
    Prop := ∀ k < bits, a.toNat.testBit (31 - k) = b.toNat.testBit (31 - k)

/-- The addresses agree in their first bits. -/
def Agree6 (bits : ℕ) (a b : Fin 16 → UInt8) : Prop :=
  ∀ i : Fin 16, ∀ k < 8, 8 * i.val + k < bits →
    (a i).toNat.testBit (7 - k) = (b i).toNat.testBit (7 - k)

theorem Agree.firstBits_eq {bits : ℕ} {a b : UInt32} (hle : bits ≤ 32) (h : Agree bits a b) :
    firstBits bits a = firstBits bits b := by
  have hdiv : a.toNat / 2 ^ (32 - bits) = b.toNat / 2 ^ (32 - bits) := by
    refine div_two_pow_eq_of_testBit a.toNat_lt b.toNat_lt fun i hlow hhigh => ?_
    have hi := h (31 - i) (by omega)
    rwa [Nat.sub_sub_self (by omega)] at hi
  rw [firstBits, firstBits, hdiv]

theorem Agree6.firstBits6_eq {bits : ℕ} {a b : Fin 16 → UInt8} (h : Agree6 bits a b) :
    firstBits6 bits a = firstBits6 bits b := by
  funext i
  have hdiv : (a i).toNat / 2 ^ restBits bits i = (b i).toNat / 2 ^ restBits bits i := by
    refine div_two_pow_eq_of_testBit (a i).toNat_lt (b i).toNat_lt fun j hlow hhigh => ?_
    unfold restBits at hlow
    have hj := h i (7 - j) (by omega) (by omega)
    rwa [Nat.sub_sub_self (by omega)] at hj
  rw [firstBits6, firstBits6, clearLow, clearLow, hdiv]

/-! ## Index -/

variable {p : IpHashParams}

theorem Accepted.hashSize_eq (h : Accepted p) : ∃ k, p.hashSize.toNat = 2 ^ k := by
  obtain ⟨hpow, -, -⟩ := h
  unfold powerOf2 at hpow
  simp only [gt_iff_lt, Bool.and_eq_true, decide_eq_true_eq, beq_iff_eq] at hpow
  exact exists_two_pow_of_and_sub_one hpow.1 hpow.2

/-- The index is the remainder of the hash. -/
theorem hashIndex_eq (h : Accepted p) (hash : UInt64) :
    hashIndex p hash = hash.toNat % p.hashSize.toNat := by
  obtain ⟨k, hk⟩ := h.hashSize_eq
  have hpos : 0 < p.hashSize.toNat := hk ▸ Nat.two_pow_pos k
  have hlt : p.hashSize.toNat < 2 ^ 32 := p.hashSize.toNat_lt
  have hone : (1 : UInt32) ≤ p.hashSize := UInt32.le_iff_toNat_le.mpr hpos
  have hsub : (p.hashSize - 1).toNat = 2 ^ k - 1 := by
    rw [UInt32.toNat_sub_of_le _ _ hone, hk]
    rfl
  unfold hashIndex
  rw [UInt64.toNat_toUInt32, UInt64.toNat_and, UInt32.toNat_toUInt64, hsub,
    Nat.and_two_pow_sub_one_eq_mod, hk]
  have hmod := Nat.mod_lt hash.toNat (Nat.two_pow_pos k)
  exact Nat.mod_eq_of_lt (by omega)

theorem hashIndex_lt (h : Accepted p) (hash : UInt64) : hashIndex p hash < p.hashSize.toNat := by
  obtain ⟨k, hk⟩ := h.hashSize_eq
  rw [hashIndex_eq h]
  exact Nat.mod_lt _ (hk ▸ Nat.two_pow_pos k)

/-! ## Buckets -/

/-- Both addresses select the same bucket, in whatever state the table is. -/
def SameBucket {p : IpHashParams} {α : Type*}
    (permitted incrementOne : IpHash p → α → Option (IpHash p × Option Bool)) (a b : α) : Prop :=
  ∃ hashval < p.hashSize.toNat, ∀ h : IpHash p,
    permitted h a = h.permittedAt hashval ∧ permitted h b = h.permittedAt hashval ∧
      incrementOne h a = h.incrementAt hashval ∧ incrementOne h b = h.incrementAt hashval

theorem not_sameBucket {α : Type*}
    {permitted incrementOne : IpHash p → α → Option (IpHash p × Option Bool)} {a b : α}
    (hnone : ∀ h, permitted h a = none) : ¬SameBucket permitted incrementOne a b := by
  rintro ⟨hashval, hlt, h⟩
  have hsome := (h ⟨fun _ => 0, fun _ => 0⟩).1
  rw [hnone, IpHash.permittedAt, if_pos hlt] at hsome
  cases hsome

/-- For every prefix length, addresses that agree in that many bits select the same bucket, and the
computation is defined and stays in the scratch address, exactly if the prefix length is not 0. -/
theorem bucket_per_network_iff (siphash64 : UInt64 → UInt64)
    (siphashBuf : (Fin 16 → UInt8) → UInt64) {p : IpHashParams} (hp : Accepted p) :
    (∀ bits : UInt8, bits.toNat ≤ 32 →
      ((∀ a b, Agree bits.toNat a b →
        SameBucket (p := p) (fun h a => h.ipPermitted siphash64 a bits)
        (fun h a => h.ipIncrementOne siphash64 a bits) a b) ↔ 1 ≤ bits.toNat)) ∧
    (∀ bits : UInt8, bits.toNat ≤ 128 →
      ((∀ a b, Agree6 bits.toNat a b →
        SameBucket (p := p) (fun h a => h.ipv6Permitted siphashBuf a bits)
        (fun h a => h.ipv6IncrementOne siphashBuf a bits) a b) ↔ 1 ≤ bits.toNat)) := by
  constructor
  · intro bits hle
    constructor
    · intro hsame
      by_contra hzero
      obtain rfl : bits = 0 := UInt8.toNat_inj.mp (by simpa using hzero)
      exact not_sameBucket (fun h => by rw [IpHash.ipPermitted, ipNetwork_zero]; rfl)
        (hsame 0 0 fun _ _ => rfl)
    · intro hpos a b hagree
      refine ⟨_, hashIndex_lt hp (siphash64 (firstBits bits.toNat a).toUInt64), fun h => ?_⟩
      simp only [IpHash.ipPermitted, IpHash.ipIncrementOne, ipNetwork_eq hpos hle,
        hagree.firstBits_eq hle, Option.bind_some, and_self]
  · intro bits hle
    constructor
    · intro hsame
      by_contra hzero
      obtain rfl : bits = 0 := UInt8.toNat_inj.mp (by simpa using hzero)
      exact not_sameBucket (fun h => by rw [IpHash.ipv6Permitted, ipv6Network_zero]; rfl)
        (hsame (fun _ => 0) (fun _ => 0) fun _ _ _ _ => rfl)
    · intro hpos a b hagree
      refine ⟨_, hashIndex_lt hp (siphashBuf (firstBits6 bits.toNat a)), fun h => ?_⟩
      simp only [IpHash.ipv6Permitted, IpHash.ipv6IncrementOne, ipv6Network_eq hpos hle,
        hagree.firstBits6_eq, Option.bind_some, and_self]

/-- Three tokens in each of four buckets, which are refilled two by two. -/
def fourBuckets : IpHashParams := ⟨3, 1000, 2, 4, 2⟩

/-- With a prefix length of 0, neither `ip_permitted` nor `ipv6_permitted` computes the network of
an address. -/
theorem no_bucket_of_zero_bits :
    ∃ h : IpHash fourBuckets, ipHashInit fourBuckets (fun _ => 0) = some h ∧
    h.ipPermitted id 0x0A000001 0 = none ∧ h.ipv6Permitted (fun _ => 0) (fun _ => 0xFE) 0 = none :=
  ⟨_, rfl, rfl, rfl⟩

/-- With a prefix length of 8, 10.0.0.1 and 10.1.2.3 select the same bucket. -/
theorem bucket_per_network_eight : Accepted fourBuckets ∧ Agree 8 0x0A000001 0x0A010203 ∧
    SameBucket (p := fourBuckets) (fun h a => h.ipPermitted id a 8)
      (fun h a => h.ipIncrementOne id a 8)
      0x0A000001 0x0A010203 := by
  have hagree : Agree 8 0x0A000001 0x0A010203 := by
    unfold Agree
    decide
  have hp : Accepted fourBuckets := by decide
  exact ⟨hp, hagree, ((bucket_per_network_iff id (fun _ => 0) hp).1 8 (by decide)).mpr
    (by decide) _ _ hagree⟩

end Pptk.Iphash
