import Pptk.Iphdr.Transport

/-!
# Checksummed areas

A header or segment with its checksum field, and the sum of a pseudo header that is
added to it (`CksumArea`). The checksum is set if it is the value that the functions of
`Pptk.Iphdr.Transport` compute, which for a positive sum means: it is not `0xffff`, and
the sum with the checksum in it is a multiple of `2^16 - 1` (`CksumArea.isSet_iff`). Because
of the two zeros, the second part alone does not determine the checksum.

Main result: `cksum_rfc1071`.
-/

namespace Pptk.Iphdr

open Pptk.Lib Function

/-- An area from `base` with its checksum in the word number `field`, and the sum of the words
outside the area that are covered, too. -/
structure CksumArea where
  extra : Mem → ℕ
  base : ℕ
  len : ℕ
  field : ℕ

namespace CksumArea

/-- The checksum that is stored. -/
def stored (A : CksumArea) (m : Mem) : ℕ := hdrGet16n m (A.base + 2 * A.field)

/-- Another checksum. -/
def write (A : CksumArea) (m : Mem) (c : ℕ) : Mem := hdrSet16n m (A.base + 2 * A.field) c

/-- The sum of all words, with the checksum. -/
def full (A : CksumArea) (m : Mem) : ℕ := A.extra m + wordSum m A.base A.len

/-- The sum of all words, without the checksum. -/
def rest (A : CksumArea) (m : Mem) : ℕ := A.full m - A.stored m

/-- The checksum that belongs to the area. -/
def value (A : CksumArea) (m : Mem) : ℕ := 65535 - foldCarry (A.rest m)

/-- The checksum is inside the area, and the sum of the other words does not depend on it. -/
structure Ok (A : CksumArea) : Prop where
  inside : 2 * A.field + 2 ≤ A.len
  extra_write : ∀ m c, A.extra (A.write m c) = A.extra m

variable {A : CksumArea} {m : Mem} {c : ℕ}

theorem stored_le (A : CksumArea) (m : Mem) : A.stored m ≤ 65535 :=
  Nat.lt_succ_iff.mp (hdrGet16n_lt ..)

theorem value_le (A : CksumArea) (m : Mem) : A.value m ≤ 65535 := Nat.sub_le ..

theorem stored_write (A : CksumArea) (m : Mem) (c : ℕ) : A.stored (A.write m c) = c % 65536 :=
  hdrGet16n_hdrSet16n ..

theorem full_write (hA : A.Ok) (m : Mem) (c : ℕ) :
    A.full (A.write m c) + A.stored m = A.full m + c % 65536 := by
  have hsame : ∀ j < A.len, j < 2 * A.field ∨ 2 * (A.field + 1) ≤ j →
      A.write m c (A.base + j) = m (A.base + j) :=
    fun j _ hj => hdrSet16n_of_ne (by omega) (by omega)
  have hframe := wordSum_frame (by have := hA.inside; omega) hsame
  rw [full, full, hA.extra_write]
  have hnew : wordSum (A.write m c) (A.base + 2 * A.field) (2 * 1) = c % 65536 := A.stored_write m c
  have hold : wordSum m (A.base + 2 * A.field) (2 * 1) = A.stored m := rfl
  omega

theorem stored_le_full (hA : A.Ok) (m : Mem) : A.stored m ≤ A.full m := by
  have := full_write hA m 0
  omega

theorem rest_write (hA : A.Ok) (m : Mem) (c : ℕ) : A.rest (A.write m c) = A.rest m := by
  have h1 := full_write hA m c
  have h2 := A.stored_write m c
  have h3 := stored_le_full hA m
  unfold rest
  omega

theorem extra_le_rest (hA : A.Ok) (m : Mem) : A.extra m ≤ A.rest m := by
  rw [← rest_write hA m 0, rest, stored_write, full, hA.extra_write]
  exact Nat.le_add_right ..

theorem write_write (A : CksumArea) (m : Mem) (c d : ℕ) :
    A.write (A.write m c) d = A.write m d := by
  unfold write hdrSet16n
  rw [update_comm (by omega), update_idem, update_comm (by omega), update_idem]

theorem value_write (hA : A.Ok) (m : Mem) (c : ℕ) : A.value (A.write m c) = A.value m := by
  rw [value, rest_write hA, value]

theorem isSet_iff (hA : A.Ok) (hrest : 0 < A.rest m) :
    A.stored m = A.value m ↔ A.stored m ≠ 65535 ∧ A.full m % 65535 = 0 := by
  have h := stored_le_full hA m
  rw [value, eq_complement_iff hrest (A.stored_le m), rest, Nat.sub_add_cancel h]

/-- The sum verifies: the complement of the folded sum is zero. -/
theorem verify_iff (hrest : 0 < A.rest m) :
    65535 - foldCarry (A.full m) = 0 ↔ A.full m % 65535 = 0 := by
  have h1 := foldCarry_le (A.full m)
  have h2 : 0 < A.full m := hrest.trans_le (Nat.sub_le ..)
  have h3 := foldCarry_eq_max (n := A.full m)
  omega

theorem verify_write_value (hA : A.Ok) (hrest : 0 < A.rest m) :
    65535 - foldCarry (A.full (A.write m (A.value m))) = 0 := by
  have hv := A.value_le m
  have hrest' : 0 < A.rest (A.write m (A.value m)) := by rwa [rest_write hA]
  refine (verify_iff hrest').mpr ((isSet_iff hA hrest').mp ?_).2
  rw [stored_write, value_write hA, Nat.mod_eq_of_lt (by omega)]

end CksumArea

/-! ## The areas of a packet -/

/-- An IPv4 header of `ihl` bytes. -/
def ipArea (iphdr ihl : ℕ) : CksumArea := ⟨fun _ => 0, iphdr, ihl, 5⟩

/-- A TCP segment over IPv4. -/
def tcpArea (iphdr tcphdr tcplen : ℕ) : CksumArea :=
  ⟨fun m => pseudoSum 6 m iphdr tcplen, tcphdr, tcplen, 8⟩

/-- A TCP segment over IPv6. -/
def tcp6Area (iphdr tcphdr tcplen : ℕ) : CksumArea :=
  ⟨fun m => pseudoSum6 6 m iphdr tcplen, tcphdr, tcplen, 8⟩

/-- A UDP datagram over IPv4. -/
def udpArea (iphdr udphdr udplen : ℕ) : CksumArea :=
  ⟨fun m => pseudoSum 17 m iphdr udplen, udphdr, udplen, 3⟩

/-- A UDP datagram over IPv6. -/
def udp6Area (iphdr udphdr udplen : ℕ) : CksumArea :=
  ⟨fun m => pseudoSum6 17 m iphdr udplen, udphdr, udplen, 3⟩

section Areas

variable {m : Mem} {iphdr hdr len proto : ℕ}

theorem pseudoSum_congr {m' : Mem} (h : ∀ j, 12 ≤ j → j < 20 → m' (iphdr + j) = m (iphdr + j)) :
    pseudoSum proto m' iphdr len = pseudoSum proto m iphdr len := by
  rw [pseudoSum, pseudoSum, wordSum_congr fun j hj => ?_]
  rw [Nat.add_assoc, h (12 + j) (by omega) (by omega)]

theorem pseudoSum6_congr {m' : Mem} (h : ∀ j, 8 ≤ j → j < 40 → m' (iphdr + j) = m (iphdr + j)) :
    pseudoSum6 proto m' iphdr len = pseudoSum6 proto m iphdr len := by
  rw [pseudoSum6, pseudoSum6, wordSum_congr fun j hj => ?_]
  rw [Nat.add_assoc, h (8 + j) (by omega) (by omega)]

theorem ipArea_ok (h : 20 ≤ len) : (ipArea iphdr len).Ok where
  inside := by simp only [ipArea]; omega
  extra_write _ _ := rfl

theorem tcpArea_ok (hlen : 20 ≤ len) (h : iphdr + 20 ≤ hdr ∨ hdr + len ≤ iphdr) :
    (tcpArea iphdr hdr len).Ok where
  inside := by simp only [tcpArea]; omega
  extra_write m c := pseudoSum_congr fun j h1 h2 => by
    simp only [tcpArea, CksumArea.write]
    exact hdrSet16n_of_ne (by omega) (by omega)

theorem tcp6Area_ok (hlen : 20 ≤ len) (h : iphdr + 40 ≤ hdr ∨ hdr + len ≤ iphdr) :
    (tcp6Area iphdr hdr len).Ok where
  inside := by simp only [tcp6Area]; omega
  extra_write m c := pseudoSum6_congr fun j h1 h2 => by
    simp only [tcp6Area, CksumArea.write]
    exact hdrSet16n_of_ne (by omega) (by omega)

theorem udpArea_ok (hlen : 8 ≤ len) (h : iphdr + 20 ≤ hdr ∨ hdr + len ≤ iphdr) :
    (udpArea iphdr hdr len).Ok where
  inside := by simp only [udpArea]; omega
  extra_write m c := pseudoSum_congr fun j h1 h2 => by
    simp only [udpArea, CksumArea.write]
    exact hdrSet16n_of_ne (by omega) (by omega)

theorem udp6Area_ok (hlen : 8 ≤ len) (h : iphdr + 40 ≤ hdr ∨ hdr + len ≤ iphdr) :
    (udp6Area iphdr hdr len).Ok where
  inside := by simp only [udp6Area]; omega
  extra_write m c := pseudoSum6_congr fun j h1 h2 => by
    simp only [udp6Area, CksumArea.write]
    exact hdrSet16n_of_ne (by omega) (by omega)

/-- The sum over an IPv4 header is positive, because the first byte holds its length. -/
theorem ipArea_rest_pos (h : 20 ≤ ipHdrLen m iphdr) :
    0 < (ipArea iphdr (ipHdrLen m iphdr)).rest m := by
  have hok : (ipArea iphdr (ipHdrLen m iphdr)).Ok := ipArea_ok h
  have hfirst : 0 < (m iphdr).toNat := by
    by_contra h0
    rw [ipHdrLen, Nat.eq_zero_of_not_pos h0] at h
    simp at h
  have hsum := wordSum_append ((ipArea iphdr (ipHdrLen m iphdr)).write m 0) iphdr 1
    (ipHdrLen m iphdr - 2)
  have hword : wordSum ((ipArea iphdr (ipHdrLen m iphdr)).write m 0) iphdr (2 * 1) =
      hdrGet16n m iphdr :=
    hdrGet16n_congr (hdrSet16n_of_ne (by simp only [ipArea]; omega) (by simp only [ipArea]; omega))
      (hdrSet16n_of_ne (by simp only [ipArea]; omega) (by simp only [ipArea]; omega))
  have hstored := CksumArea.stored_write (ipArea iphdr (ipHdrLen m iphdr)) m 0
  rw [← CksumArea.rest_write hok m 0, CksumArea.rest, hstored, CksumArea.full]
  rw [show 2 * 1 + (ipHdrLen m iphdr - 2) = ipHdrLen m iphdr by omega, hword] at hsum
  simp only [ipArea] at hsum ⊢
  unfold hdrGet16n at hsum
  omega

theorem pseudoSum_pos (hproto : 0 < proto) : 0 < pseudoSum proto m iphdr len := by
  unfold pseudoSum
  omega

theorem pseudoSum6_pos (hproto : 0 < proto) : 0 < pseudoSum6 proto m iphdr len := by
  unfold pseudoSum6
  omega

end Areas

/-! ## Writing the checksum of an area -/

section SetCalc

variable {e : Endian} {m : Mem} {iphdr iplen hdr len : ℕ}

theorem setCksumCalc_eq {A : CksumArea} (hA : A.Ok) {minIplen minLen : ℕ} {set : Mem → ℕ → ℕ → Mem}
    {cksumOf : Mem → ℕ → ℕ → ℕ → ℕ → Option ℕ} (hip : minIplen ≤ iplen) (hlen : minLen ≤ len)
    (hset : ∀ m c, set m hdr c = A.write m c)
    (hcalc : ∀ m, cksumOf m iphdr iplen hdr len = some (65535 - foldCarry (A.full m))) :
    setCksumCalc m iphdr iplen hdr len minIplen minLen set cksumOf =
      some (A.write m (A.value m)) := by
  have hfull : A.full (A.write m 0) = A.rest m := by
    have h1 := CksumArea.full_write hA m 0
    have h2 := CksumArea.stored_le_full hA m
    unfold CksumArea.rest
    omega
  simp only [setCksumCalc, if_neg (show ¬iplen < minIplen by omega),
    if_neg (show ¬len < minLen by omega), hset, hcalc, hfull, Option.map_some,
    CksumArea.write_write]
  rfl

/-- `ip_set_hdr_cksum_calc` writes `CksumArea.value`. -/
theorem ipArea_setCalc (hihl : 20 ≤ ipHdrLen m iphdr) (hip : ipHdrLen m iphdr ≤ iplen) :
    ipSetHdrCksumCalc e m iphdr iplen = some ((ipArea iphdr (ipHdrLen m iphdr)).write m
      ((ipArea iphdr (ipHdrLen m iphdr)).value m)) := by
  have hok : (ipArea iphdr (ipHdrLen m iphdr)).Ok := ipArea_ok hihl
  have hlen := ipHdrLen_ipSetHdrCksum m iphdr 0
  have hfull : (ipArea iphdr (ipHdrLen m iphdr)).full (ipSetHdrCksum m iphdr 0) =
      (ipArea iphdr (ipHdrLen m iphdr)).rest m := by
    have h1 := CksumArea.full_write hok m 0
    have h2 := CksumArea.stored_le_full hok m
    simp only [CksumArea.rest] at h1 h2 ⊢
    exact (Nat.sub_eq_of_eq_add h1.symm).symm
  rw [ipSetHdrCksumCalc, if_neg (by omega)]
  simp only
  rw [ipHdrCksumCalc_eq (by omega), hlen, Option.map_some, ipSetHdrCksum_ipSetHdrCksum]
  simp only [CksumArea.full, ipArea, Nat.zero_add] at hfull
  rw [hfull]
  rfl

/-- `tcp_set_cksum_calc` writes `CksumArea.value`. -/
theorem tcpArea_setCalc (hip : 20 ≤ iplen) (h20 : 20 ≤ len) (hlen : len ≤ 65535)
    (h : iphdr + 20 ≤ hdr ∨ hdr + len ≤ iphdr) :
    tcpSetCksumCalc e m iphdr iplen hdr len =
      some ((tcpArea iphdr hdr len).write m ((tcpArea iphdr hdr len).value m)) :=
  setCksumCalc_eq (tcpArea_ok h20 h) hip h20 (fun _ _ => rfl) fun _ => tcpCksumCalc_eq hip hlen

/-- `udp_set_cksum_calc` writes `CksumArea.value`. -/
theorem udpArea_setCalc (hip : 20 ≤ iplen) (h8 : 8 ≤ len) (hlen : len ≤ 65535)
    (h : iphdr + 20 ≤ hdr ∨ hdr + len ≤ iphdr) :
    udpSetCksumCalc e m iphdr iplen hdr len =
      some ((udpArea iphdr hdr len).write m ((udpArea iphdr hdr len).value m)) :=
  setCksumCalc_eq (udpArea_ok h8 h) hip h8 (fun _ _ => rfl) fun _ => udpCksumCalc_eq hip hlen

theorem verify_setCalc {A : CksumArea} (hA : A.Ok) (hpos : 0 < A.rest m) {cksumOf : Mem → Option ℕ}
    (hcalc : ∀ m, cksumOf m = some (65535 - foldCarry (A.full m))) :
    cksumOf (A.write m (A.value m)) = some 0 := by
  rw [hcalc, CksumArea.verify_write_value hA hpos]

theorem ipHdr_verifies (hihl : 20 ≤ ipHdrLen m iphdr) (hip : ipHdrLen m iphdr ≤ iplen) :
    ∃ m', ipSetHdrCksumCalc e m iphdr iplen = some m' ∧
      ipHdrCksumCalc e m' iphdr iplen = some 0 := by
  have hok : (ipArea iphdr (ipHdrLen m iphdr)).Ok := ipArea_ok hihl
  have hlen : ∀ c, ipHdrLen ((ipArea iphdr (ipHdrLen m iphdr)).write m c) iphdr =
    ipHdrLen m iphdr := ipHdrLen_ipSetHdrCksum m iphdr
  have hzero := CksumArea.verify_write_value hok (ipArea_rest_pos hihl)
  refine ⟨_, ipArea_setCalc hihl hip, ?_⟩
  rw [ipHdrCksumCalc_eq (by rw [hlen]; exact hip), hlen]
  simp only [CksumArea.full, ipArea, Nat.zero_add] at hzero ⊢
  rw [hzero]

end SetCalc

/-- Checksums are those of RFC 1071 on hosts of either byte order, for every buffer of up to 65535
bytes; and every header or segment verifies after its checksum has been written. -/
theorem cksum_rfc1071 (e : Endian) (m : Mem) :
    (∀ buf sz, sz ≤ 65535 → ipCksumPostprocess e (ipCksumFeed e m buf sz 0) =
      65535 - onesSum (words m buf sz)) ∧
    (∀ iphdr iplen, 20 ≤ ipHdrLen m iphdr → ipHdrLen m iphdr ≤ iplen →
      ∃ m', ipSetHdrCksumCalc e m iphdr iplen = some m' ∧
        ipHdrCksumCalc e m' iphdr iplen = some 0) ∧
    (∀ iphdr iplen hdr len, 20 ≤ iplen → len ≤ 65535 → iphdr + 20 ≤ hdr ∨ hdr + len ≤ iphdr →
      (20 ≤ len → ∃ m', tcpSetCksumCalc e m iphdr iplen hdr len = some m' ∧
        tcpCksumCalc e m' iphdr iplen hdr len = some 0) ∧
      (8 ≤ len → ∃ m', udpSetCksumCalc e m iphdr iplen hdr len = some m' ∧
        udpCksumCalc e m' iphdr iplen hdr len = some 0)) ∧
    (∀ iphdr iplen hdr len, 40 ≤ iplen → len ≤ 65535 → iphdr + 40 ≤ hdr ∨ hdr + len ≤ iphdr →
      (20 ≤ len → ∃ m', tcp6SetCksumCalc e m iphdr iplen hdr len = some m' ∧
        tcp6CksumCalc e m' iphdr iplen hdr len = some 0) ∧
      (8 ≤ len → ∃ m', udp6SetCksumCalc e m iphdr iplen hdr len = some m' ∧
        udp6CksumCalc e m' iphdr iplen hdr len = some 0)) := by
  refine ⟨fun buf sz hsz => ipCksum_rfc1071 e m buf hsz,
    fun iphdr iplen hihl hip => ipHdr_verifies hihl hip, ?_, ?_⟩
  · intro iphdr iplen hdr len hip hlen h
    constructor
    · intro h20
      have hok := tcpArea_ok h20 h
      have hpos := (pseudoSum_pos (by norm_num)).trans_le (CksumArea.extra_le_rest hok m)
      exact ⟨_, tcpArea_setCalc hip h20 hlen h,
        verify_setCalc (A := tcpArea iphdr hdr len) hok hpos fun _ => tcpCksumCalc_eq hip hlen⟩
    · intro h8
      have hok := udpArea_ok h8 h
      have hpos := (pseudoSum_pos (by norm_num)).trans_le (CksumArea.extra_le_rest hok m)
      exact ⟨_, udpArea_setCalc hip h8 hlen h,
        verify_setCalc (A := udpArea iphdr hdr len) hok hpos fun _ => udpCksumCalc_eq hip hlen⟩
  · intro iphdr iplen hdr len hip hlen h
    constructor
    · intro h20
      have hok := tcp6Area_ok h20 h
      have hpos := (pseudoSum6_pos (by norm_num)).trans_le (CksumArea.extra_le_rest hok m)
      exact ⟨_, setCksumCalc_eq (A := tcp6Area iphdr hdr len) hok hip h20 (fun _ _ => rfl)
          fun _ => tcp6CksumCalc_eq hip hlen,
        verify_setCalc (A := tcp6Area iphdr hdr len) hok hpos fun _ => tcp6CksumCalc_eq hip hlen⟩
    · intro h8
      have hok := udp6Area_ok h8 h
      have hpos := (pseudoSum6_pos (by norm_num)).trans_le (CksumArea.extra_le_rest hok m)
      exact ⟨_, setCksumCalc_eq (A := udp6Area iphdr hdr len) hok hip h8 (fun _ _ => rfl)
          fun _ => udp6CksumCalc_eq hip hlen,
        verify_setCalc (A := udp6Area iphdr hdr len) hok hpos fun _ => udp6CksumCalc_eq hip hlen⟩

/-- A header of 20 bytes on a little-endian host, and an odd buffer in it. -/
theorem cksum_rfc1071_minimal :
    ipCksumPostprocess .little (ipCksumFeed .little (fun _ => 0x45) 0 19 0) =
      65535 - onesSum (words (fun _ => 0x45) 0 19) ∧
    ∃ m', ipSetHdrCksumCalc .little (fun _ => 0x45) 0 20 = some m' ∧
      ipHdrCksumCalc .little m' 0 20 = some 0 :=
  ⟨(cksum_rfc1071 .little _).1 0 19 (by decide),
    (cksum_rfc1071 .little _).2.1 0 20 (by decide) (by decide)⟩

end Pptk.Iphdr
