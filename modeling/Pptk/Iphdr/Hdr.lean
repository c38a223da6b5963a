import Pptk.Lib.Mem

/-!
# Ethernet and IPv4 header accessors

Models of the accessors of `misc/hdr.h` and `iphdr/iphdr.h` that the
fragmenter and the reassembly engines use. A pointer into a packet is the
packet's memory together with an index; `ip` is the index of the IP header
(14 behind an Ethernet header, `etherPayload`).

`hdr_get16n` is `ntohs(hdr_get16h(·))`: on either byte order it is the
big-endian value of two bytes, which is how it is defined here
(`ntohs_hdrGet16h`). Values of C type `uint8_t` and `uint16_t` are natural
numbers, which the accessors keep below `2^8` and `2^16`.
-/

namespace Pptk.Iphdr

open Pptk.Lib Function

/-! ## Host byte order -/

/-- The byte order of the host. -/
inductive Endian
  | little
  | big
deriving DecidableEq, Repr

/-- `hdr_get16h` (hdr.h:21-26). -/
def hdrGet16h (e : Endian) (m : Mem) (i : ℕ) : ℕ :=
  match e with
  | .little => (m i).toNat + 256 * (m (i + 1)).toNat
  | .big => 256 * (m i).toNat + (m (i + 1)).toNat

/-- `ntohs` and `htons` on 16-bit values. -/
def ntohs (e : Endian) (x : ℕ) : ℕ :=
  match e with
  | .little => x % 256 * 256 + x / 256 % 256
  | .big => x % 65536

/-- `hdr_get16n` (hdr.h:60-63). -/
def hdrGet16n (m : Mem) (i : ℕ) : ℕ := 256 * (m i).toNat + (m (i + 1)).toNat

/-- `hdr_set16n` (hdr.h:70-73). -/
def hdrSet16n (m : Mem) (i v : ℕ) : Mem :=
  update (update m i (UInt8.ofNat (v / 256))) (i + 1) (UInt8.ofNat v)

theorem hdrGet16n_lt (m : Mem) (i : ℕ) : hdrGet16n m i < 65536 := by
  have h1 := (m i).toNat_lt
  have h2 := (m (i + 1)).toNat_lt
  unfold hdrGet16n
  omega

theorem hdrGet16n_congr {m m' : Mem} {i j : ℕ} (h0 : m i = m' j) (h1 : m (i + 1) = m' (j + 1)) :
    hdrGet16n m i = hdrGet16n m' j := by
  rw [hdrGet16n, hdrGet16n, h0, h1]

theorem hdrGet16n_inj {m m' : Mem} {i j : ℕ} (h : hdrGet16n m i = hdrGet16n m' j) :
    m i = m' j ∧ m (i + 1) = m' (j + 1) := by
  have h1 := (m (i + 1)).toNat_lt
  have h2 := (m' (j + 1)).toNat_lt
  unfold hdrGet16n at h
  exact ⟨UInt8.toNat_inj.mp (by omega), UInt8.toNat_inj.mp (by omega)⟩

/-- A word that was written is read back modulo `2 ^ 16`. -/
theorem hdrGet16n_hdrSet16n (m : Mem) (i v : ℕ) : hdrGet16n (hdrSet16n m i v) i = v % 65536 := by
  simp only [hdrGet16n, hdrSet16n, update_self, ne_eq, Nat.left_eq_add, one_ne_zero,
    not_false_eq_true, update_of_ne, UInt8.toNat_ofNat']
  omega

theorem hdrSet16n_mod (m : Mem) (i v : ℕ) : hdrSet16n m i (v % 65536) = hdrSet16n m i v := by
  have hhi : UInt8.ofNat (v % 65536 / 256) = UInt8.ofNat (v / 256) := by
    rw [← UInt8.toNat_inj, UInt8.toNat_ofNat', UInt8.toNat_ofNat']
    omega
  have hlo : UInt8.ofNat (v % 65536) = UInt8.ofNat v := by
    rw [← UInt8.toNat_inj, UInt8.toNat_ofNat', UInt8.toNat_ofNat']
    omega
  rw [hdrSet16n, hhi, hlo, hdrSet16n]

/-- Bytes outside of the word are unchanged. -/
theorem hdrSet16n_of_ne {m : Mem} {i v j : ℕ} (h0 : j ≠ i) (h1 : j ≠ i + 1) :
    hdrSet16n m i v j = m j := by
  simp [hdrSet16n, h0, h1]

/-- Writing back a word that was read changes nothing. -/
theorem hdrSet16n_hdrGet16n (m : Mem) (i : ℕ) : hdrSet16n m i (hdrGet16n m i) = m := by
  have h1 := (m i).toNat_lt
  have h2 := (m (i + 1)).toNat_lt
  funext j
  by_cases hj1 : j = i + 1
  · subst hj1
    simp only [hdrSet16n, update_self, hdrGet16n]
    apply UInt8.toNat_inj.mp
    rw [UInt8.toNat_ofNat']
    omega
  · by_cases hj0 : j = i
    · subst hj0
      simp only [hdrSet16n, hdrGet16n, ne_eq, Nat.left_eq_add, one_ne_zero, not_false_eq_true,
        update_of_ne, update_self]
      apply UInt8.toNat_inj.mp
      rw [UInt8.toNat_ofNat']
      omega
    · exact hdrSet16n_of_ne hj0 hj1

/-! ## Ethernet -/

/-- `ETHER_HDR_LEN` (iphdr.h:427). -/
abbrev etherHdrLen : ℕ := 14

/-- `ETHER_TYPE_IP` (iphdr.h:429). -/
abbrev etherTypeIp : ℕ := 0x0800

/-- `IP_HDR_MINLEN` (iphdr.h:433). -/
abbrev ipHdrMinlen : ℕ := 20

/-- `ether_type` (iphdr.h:403-407). -/
def etherType (m : Mem) (ether : ℕ) : ℕ := hdrGet16n m (ether + 12)

/-- `ether_payload`, `ether_const_payload` (iphdr.h:415-425). -/
abbrev etherPayload (ether : ℕ) : ℕ := ether + 14

/-! ## IPv4 getters -/

section Getters

variable (m : Mem) (ip : ℕ)

/-- `ip_version` (iphdr.h:435-439). -/
def ipVersion : ℕ := (m ip).toNat >>> 4 &&& 0xF

/-- `ip_hdr_len` (iphdr.h:876-880). -/
def ipHdrLen : ℕ := ((m ip).toNat &&& 0xF) * 4

/-- `ip_total_len` (iphdr.h:943-947). -/
def ipTotalLen : ℕ := hdrGet16n m (ip + 2)

/-- `ip_more_frags` (iphdr.h:1023-1027). -/
def ipMoreFrags : Bool := m (ip + 6) &&& ((1 : UInt8) <<< 5) ≠ 0

/-- `ip_dont_frag` (iphdr.h:1040-1044). -/
def ipDontFrag : Bool := m (ip + 6) &&& ((1 : UInt8) <<< 6) ≠ 0

/-- `ip_frag_off` (iphdr.h:1124-1128). -/
def ipFragOff : ℕ := (hdrGet16n m (ip + 6) &&& 0x1FFF) * 8

/-- `ip_payload`, `ip_const_payload` (iphdr.h:1283-1296). -/
def ipPayload : ℕ := ip + ipHdrLen m ip

theorem ipHdrLen_le : ipHdrLen m ip ≤ 60 := by
  have : (m ip).toNat &&& 0xF ≤ 0xF := Nat.and_le_right
  unfold ipHdrLen
  omega

theorem ipTotalLen_lt : ipTotalLen m ip < 65536 := hdrGet16n_lt m _

/-- The fragment offset is the low 13 bits of its word, times 8. -/
theorem ipFragOff_eq : ipFragOff m ip = hdrGet16n m (ip + 6) % 8192 * 8 := by
  rw [ipFragOff, show (0x1FFF : ℕ) = 2 ^ 13 - 1 from rfl, Nat.and_two_pow_sub_one_eq_mod]

theorem ipFragOff_le : ipFragOff m ip ≤ 65528 := by
  rw [ipFragOff_eq]
  omega

theorem ipFragOff_mod : ipFragOff m ip % 8 = 0 := by
  rw [ipFragOff_eq]
  omega

end Getters

/-! ## IPv4 setters -/

section Setters

variable (m : Mem) (ip : ℕ)

/-- `ip_set_total_len` (iphdr.h:949-953). -/
def ipSetTotalLen (totalLen : ℕ) : Mem := hdrSet16n m (ip + 2) totalLen

/-- `ip_set_more_frags` (iphdr.h:1029-1038). -/
def ipSetMoreFrags (bit : Bool) : Mem :=
  let u8 := m (ip + 6) &&& ~~~((1 : UInt8) <<< 5)
  update m (ip + 6) (u8 ||| (if bit then (1 : UInt8) else 0) <<< 5)

/-- `ip_set_frag_off` (iphdr.h:1130-1144); `none` is its `abort()`. -/
def ipSetFragOff (fragOff : ℕ) : Option Mem :=
  if fragOff % 8 ≠ 0 then none
  else
    let fragOff := fragOff / 8
    let c6 := m (ip + 6) &&& ~~~0x1F
    let c6 := c6 ||| (UInt8.ofNat (fragOff >>> 8) &&& 0x1F)
    some (update (update m (ip + 6) c6) (ip + 7)
      (UInt8.ofNat (fragOff &&& 0xFF)))

/-- `ip_set_hdr_cksum` (iphdr.h:1253-1257). -/
def ipSetHdrCksum (hdrCksum : ℕ) : Mem := hdrSet16n m (ip + 10) hdrCksum

end Setters

/-! ## What the setters change -/

section SetterLemmas

variable {m m' : Mem} {ip j : ℕ}

theorem ipTotalLen_ipSetTotalLen (m : Mem) (ip v : ℕ) :
    ipTotalLen (ipSetTotalLen m ip v) ip = v % 65536 :=
  hdrGet16n_hdrSet16n m (ip + 2) v

theorem ipSetTotalLen_of_ne {v : ℕ} (h0 : j ≠ ip + 2) (h1 : j ≠ ip + 3) :
    ipSetTotalLen m ip v j = m j :=
  hdrSet16n_of_ne h0 h1

theorem ipSetHdrCksum_of_ne {v : ℕ} (h0 : j ≠ ip + 10) (h1 : j ≠ ip + 11) :
    ipSetHdrCksum m ip v j = m j :=
  hdrSet16n_of_ne h0 h1

theorem toNat_mod_32 (x : UInt8) : x.toNat % 32 = (x &&& 0x1F).toNat := by
  rw [UInt8.toNat_and]
  exact (Nat.and_two_pow_sub_one_eq_mod x.toNat 5).symm

theorem or_and_distrib (x y z : UInt8) : (x ||| y) &&& z = (x &&& z) ||| (y &&& z) := by
  apply UInt8.toBitVec_inj.mp
  ext i hi
  simp [Bool.and_or_distrib_right]

theorem flags_byte_eq (x : UInt8) : x = (x &&& 0xC0) ||| (x &&& 0x20) ||| (x &&& 0x1F) := by
  apply UInt8.toBitVec_inj.mp
  ext i hi
  have : i < 8 := hi
  interval_cases i <;> simp

theorem flag_zero_or (x : UInt8) : x &&& 0x20 = 0 ∨ x &&& 0x20 = 0x20 := by
  have hbit : ∀ b, x.toBitVec.getLsbD 5 = b → x &&& 0x20 = if b then 0x20 else 0 := by
    intro b h
    apply UInt8.toBitVec_inj.mp
    ext i hi
    have : i < 8 := hi
    cases b <;> interval_cases i <;> simp_all
  rcases Bool.eq_false_or_eq_true (x.toBitVec.getLsbD 5) with h | h
  · exact .inr (hbit true h)
  · exact .inl (hbit false h)

theorem and_setLow (x y z : UInt8) :
    ((x &&& ~~~0x1F) ||| (y &&& 0x1F)) &&& z = (x &&& (~~~0x1F &&& z)) |||
      (y &&& (0x1F &&& z)) := by
  rw [or_and_distrib, UInt8.and_assoc, UInt8.and_assoc]

theorem and_setFlag (x z : UInt8) (b : Bool) :
    ((x &&& ~~~((1 : UInt8) <<< 5)) ||| (if b then (1 : UInt8) else 0) <<< 5) &&& z =
      (x &&& (~~~0x20 &&& z)) ||| (if b then 0x20 &&& z else 0) := by
  rw [or_and_distrib, UInt8.and_assoc]
  cases b
  · exact congrArg₂ (· ||| ·) rfl (UInt8.zero_and ..)
  · rfl

/-- `ip_set_frag_off` sets the offset and keeps the flags and all other bytes. -/
theorem ipSetFragOff_spec (m : Mem) (ip : ℕ) {v : ℕ} (h : v % 8 = 0) (hv : v < 65536) :
    ∃ m', ipSetFragOff m ip v = some m' ∧ ipFragOff m' ip = v ∧
      ipMoreFrags m' ip = ipMoreFrags m ip ∧ m' (ip + 6) &&& 0xC0 = m (ip + 6) &&& 0xC0 ∧
      ∀ j, j ≠ ip + 6 → j ≠ ip + 7 → m' j = m j := by
  refine ⟨_, by rw [ipSetFragOff, if_neg (by simp [h])], ?_, ?_, ?_, fun j h6 h7 => ?_⟩
  · rw [ipFragOff_eq, hdrGet16n, update_self, update_of_ne (by omega),
      update_self, UInt8.toNat_ofNat', Nat.shiftRight_eq_div_pow,
      show (0xFF : ℕ) = 2 ^ 8 - 1 from rfl, Nat.and_two_pow_sub_one_eq_mod]
    have hlow : ((m (ip + 6) &&& ~~~0x1F) ||| (UInt8.ofNat (v / 8 / 2 ^ 8) &&& 0x1F)).toNat % 32 =
        v / 8 / 256 % 32 := by
      rw [toNat_mod_32, and_setLow]
      rw [show (~~~0x1F &&& 0x1F : UInt8) = 0 from rfl, UInt8.and_zero, UInt8.zero_or,
        UInt8.and_self, ← toNat_mod_32, UInt8.toNat_ofNat']
      omega
    omega
  · simp only [ipMoreFrags, update_of_ne (show ip + 6 ≠ ip + 7 by omega),
      update_self, and_setLow]
    rw [show (0x1F : UInt8) &&& (1 : UInt8) <<< 5 = 0 from rfl, UInt8.and_zero, UInt8.or_zero]
    rfl
  · rw [update_of_ne (by omega), update_self, and_setLow,
      show (0x1F &&& 0xC0 : UInt8) = 0 from rfl, UInt8.and_zero, UInt8.or_zero]
    rfl
  · rw [update_of_ne h7, update_of_ne h6]

/-- `ip_set_more_frags` sets the flag and keeps the offset and all other bytes. -/
theorem ipSetMoreFrags_spec (m : Mem) (ip : ℕ) (b : Bool) :
    ipMoreFrags (ipSetMoreFrags m ip b) ip = b ∧
      ipFragOff (ipSetMoreFrags m ip b) ip = ipFragOff m ip ∧
      ipSetMoreFrags m ip b (ip + 6) &&& 0xC0 = m (ip + 6) &&& 0xC0 ∧
      ∀ j, j ≠ ip + 6 → ipSetMoreFrags m ip b j = m j := by
  have h6 : ∀ z, ipSetMoreFrags m ip b (ip + 6) &&& z =
      (m (ip + 6) &&& (~~~0x20 &&& z)) ||| (if b then 0x20 &&& z else 0) := fun z => by
    rw [← and_setFlag, ipSetMoreFrags, update_self]
  have hne : ∀ j, j ≠ ip + 6 → ipSetMoreFrags m ip b j = m j := fun j hj =>
    update_of_ne hj ..
  refine ⟨?_, ?_, ?_, hne⟩
  · rw [ipMoreFrags, h6, show ~~~(0x20 : UInt8) &&& (1 : UInt8) <<< 5 = 0 from rfl,
      UInt8.and_zero, UInt8.zero_or]
    cases b <;> rfl
  · have hlow : (ipSetMoreFrags m ip b (ip + 6)).toNat % 32 = (m (ip + 6)).toNat % 32 := by
      rw [toNat_mod_32, h6, toNat_mod_32]
      cases b <;> exact congrArg UInt8.toNat (UInt8.or_zero ..)
    rw [ipFragOff_eq, ipFragOff_eq, hdrGet16n, hdrGet16n, hne (ip + 6 + 1) (by omega)]
    omega
  · rw [h6]
    cases b <;> exact UInt8.or_zero ..

/-- The high bits, the flag and the offset determine the two bytes that hold them. -/
theorem flags_ext (h1 : m (ip + 6) &&& 0xC0 = m' (ip + 6) &&& 0xC0)
    (h2 : ipMoreFrags m ip = ipMoreFrags m' ip) (h3 : ipFragOff m ip = ipFragOff m' ip) :
    m (ip + 6) = m' (ip + 6) ∧ m (ip + 7) = m' (ip + 7) := by
  rw [ipFragOff_eq, ipFragOff_eq, hdrGet16n, hdrGet16n] at h3
  rw [show ip + 6 + 1 = ip + 7 from rfl] at h3
  have hlt := (m (ip + 7)).toNat_lt
  have hlt' := (m' (ip + 7)).toNat_lt
  have hlow : m (ip + 6) &&& 0x1F = m' (ip + 6) &&& 0x1F := by
    rw [← UInt8.toNat_inj, ← toNat_mod_32, ← toNat_mod_32]
    omega
  have hflag : m (ip + 6) &&& 0x20 = m' (ip + 6) &&& 0x20 := by
    have h2 : (m (ip + 6) &&& 0x20 ≠ 0) ↔ (m' (ip + 6) &&& 0x20 ≠ 0) := decide_eq_decide.mp h2
    rcases flag_zero_or (m (ip + 6)) with h | h <;>
      rcases flag_zero_or (m' (ip + 6)) with h' | h' <;>
      simp_all
  refine ⟨?_, UInt8.toNat_inj.mp (by omega)⟩
  rw [flags_byte_eq (m (ip + 6)), h1, hflag, hlow, ← flags_byte_eq]

end SetterLemmas

end Pptk.Iphdr
