import Pptk.Iphdr.Hdr

/-!
# The IPv4 header checksum

Models of `ip_cksum_feed` and `ip_hdr_cksum_calc` (iphdr/ipcksum.c:9-49) and of
`ip_set_hdr_cksum_calc` (iphdr/ipcksum.h:101-111), on a host of either byte
order. The accumulator is a `uint32_t`.
-/

namespace Pptk.Iphdr

open Pptk.Lib List

/-- `ip_cksum_add16` (ipcksum.h:27-30). -/
def ipCksumAdd16 (sum val16 : ℕ) : ℕ := (sum + val16) % 2 ^ 32

/-- `ip_cksum_add_leftover` (ipcksum.h:32-35). -/
def ipCksumAddLeftover (e : Endian) (sum val : ℕ) : ℕ := (sum + ntohs e (val * 256)) % 2 ^ 32

/-- The loop of `ip_cksum_postprocess` (ipcksum.h:20-23), at most `fuel` iterations. -/
def ipCksumFold : ℕ → ℕ → ℕ
  | 0, sum => sum
  | fuel + 1, sum =>
    if sum >>> 16 ≠ 0 then ipCksumFold fuel ((sum &&& 0xffff) + (sum >>> 16)) else sum

/-- `ip_cksum_postprocess` (ipcksum.h:17-25). The loop leaves a 32-bit sum after two iterations
(`ipCksumFold_lt`). -/
def ipCksumPostprocess (e : Endian) (sum : ℕ) : ℕ := ntohs e (65535 - ipCksumFold 2 sum)

/-- One iteration of the loop over 16-byte blocks (ipcksum.c:13-25). -/
def ipCksumBlock (e : Endian) (m : Mem) (cbuf sum : ℕ) : ℕ :=
  [0, 2, 4, 6, 8, 10, 12, 14].foldl (fun sum k => ipCksumAdd16 sum (hdrGet16h e m (cbuf + k))) sum

/-- `ip_cksum_feed` (ipcksum.c:9-37): `sz / 16` blocks, then the remaining words, then a left-over
byte. -/
def ipCksumFeed (e : Endian) (m : Mem) (buf sz sum : ℕ) : ℕ :=
  let sum := (range (sz / 16)).foldl (fun sum k => ipCksumBlock e m (buf + 16 * k) sum) sum
  let cbuf := buf + 16 * (sz / 16)
  let sum := (range (sz % 16 / 2)).foldl
    (fun sum k => ipCksumAdd16 sum (hdrGet16h e m (cbuf + 2 * k))) sum
  if sz % 2 ≥ 1 then ipCksumAddLeftover e sum (m (buf + (sz - 1))).toNat else sum

/-- `ip_hdr_cksum_calc` (ipcksum.c:39-49); `none` is its `abort()`. -/
def ipHdrCksumCalc (e : Endian) (m : Mem) (iphdr iplen : ℕ) : Option ℕ :=
  let ihl := ipHdrLen m iphdr
  if ihl > iplen then none else some (ipCksumPostprocess e (ipCksumFeed e m iphdr ihl 0))

/-- `ip_set_hdr_cksum_calc` (ipcksum.h:101-111); `none` is an `abort()`. -/
def ipSetHdrCksumCalc (e : Endian) (m : Mem) (iphdr iplen : ℕ) : Option Mem :=
  if iplen < 20 then none
  else
    let m := ipSetHdrCksum m iphdr 0
    (ipHdrCksumCalc e m iphdr iplen).map fun cksum => ipSetHdrCksum m iphdr cksum

/-- Two rounds bring a 32-bit sum below `2^16`, so `ip_cksum_postprocess` has left its loop. -/
theorem ipCksumFold_lt {sum : ℕ} (h : sum < 2 ^ 32) : ipCksumFold 2 sum < 2 ^ 16 := by
  have hm : ∀ s : ℕ, s &&& 0xffff = s % 65536 := fun s => by
    rw [show (0xffff : ℕ) = 2 ^ 16 - 1 from rfl, Nat.and_two_pow_sub_one_eq_mod]
  simp only [ipCksumFold, hm, Nat.shiftRight_eq_div_pow]
  split_ifs <;> omega

/-! ## Dependence on the bytes fed -/

variable {e : Endian} {m m' : Mem}

theorem hdrGet16h_congr {i j : ℕ} (h0 : m i = m' j) (h1 : m (i + 1) = m' (j + 1)) :
    hdrGet16h e m i = hdrGet16h e m' j := by
  cases e <;> simp only [hdrGet16h, h0, h1]

/-- The sum only depends on the bytes it is fed. -/
theorem ipCksumFeed_congr {buf buf' sz : ℕ} (sum : ℕ) (h : ∀ j < sz, m (buf + j) = m' (buf' + j)) :
    ipCksumFeed e m buf sz sum = ipCksumFeed e m' buf' sz sum := by
  have hw : ∀ j, j + 1 < sz → hdrGet16h e m (buf + j) = hdrGet16h e m' (buf' + j) := fun j hj =>
    hdrGet16h_congr (h j (by omega)) (h (j + 1) hj)
  have hblock : ∀ s, ∀ k ∈ range (sz / 16),
      ipCksumBlock e m (buf + 16 * k) s = ipCksumBlock e m' (buf' + 16 * k) s := by
    intro s k hk
    rw [mem_range] at hk
    apply foldl_ext
    intro s j hj
    have hj' : j ≤ 14 := by simp at hj; omega
    rw [Nat.add_assoc, Nat.add_assoc, hw (16 * k + j) (by omega)]
  have hrest : ∀ s, ∀ k ∈ range (sz % 16 / 2),
      ipCksumAdd16 s (hdrGet16h e m (buf + 16 * (sz / 16) + 2 * k)) =
        ipCksumAdd16 s (hdrGet16h e m' (buf' + 16 * (sz / 16) + 2 * k)) := by
    intro s k hk
    rw [mem_range] at hk
    rw [Nat.add_assoc, Nat.add_assoc, hw (16 * (sz / 16) + 2 * k) (by omega)]
  unfold ipCksumFeed
  simp only
  rw [foldl_ext _ _ sum hblock, foldl_ext _ _ _ hrest]
  split_ifs with hodd
  · rw [h (sz - 1) (by omega)]
  · rfl

/-! ## The value written into the header -/

/-- The checksum `ip_set_hdr_cksum_calc` writes. -/
def ipHdrCksumValue (e : Endian) (m : Mem) (iphdr : ℕ) : ℕ :=
  ipCksumPostprocess e (ipCksumFeed e (ipSetHdrCksum m iphdr 0) iphdr (ipHdrLen m iphdr) 0)

theorem ipSetHdrCksum_ipSetHdrCksum (m : Mem) (iphdr a b : ℕ) :
    ipSetHdrCksum (ipSetHdrCksum m iphdr a) iphdr b = ipSetHdrCksum m iphdr b := by
  funext j
  by_cases h0 : j = iphdr + 10
  · subst h0; simp [ipSetHdrCksum, hdrSet16n]
  · by_cases h1 : j = iphdr + 10 + 1
    · subst h1; simp [ipSetHdrCksum, hdrSet16n]
    · simp only [ipSetHdrCksum, hdrSet16n_of_ne h0 h1]

theorem ipHdrLen_ipSetHdrCksum (m : Mem) (iphdr a : ℕ) :
    ipHdrLen (ipSetHdrCksum m iphdr a) iphdr = ipHdrLen m iphdr := by
  rw [ipHdrLen, ipSetHdrCksum, hdrSet16n_of_ne (by omega) (by omega), ipHdrLen]

/-- `ip_set_hdr_cksum_calc` writes a value that only depends on the header bytes other than the
checksum field (`ipHdrCksumValue_congr`). -/
theorem ipSetHdrCksumCalc_eq (e : Endian) (m : Mem) {iphdr iplen : ℕ} (h20 : 20 ≤ iplen)
    (hlen : ipHdrLen m iphdr ≤ iplen) :
    ipSetHdrCksumCalc e m iphdr iplen =
      some (ipSetHdrCksum m iphdr (ipHdrCksumValue e m iphdr)) := by
  simp only [ipSetHdrCksumCalc, ipHdrCksumCalc, ipHdrLen_ipSetHdrCksum]
  rw [if_neg (by omega), if_neg (by omega), Option.map_some, ipSetHdrCksum_ipSetHdrCksum]
  rfl

/-- The value written only depends on the header bytes outside the checksum. -/
theorem ipHdrCksumValue_congr {iphdr iphdr' : ℕ} (h0 : m iphdr = m' iphdr')
    (h : ∀ j < ipHdrLen m iphdr, j ≠ 10 → j ≠ 11 → m (iphdr + j) = m' (iphdr' + j)) :
    ipHdrCksumValue e m iphdr = ipHdrCksumValue e m' iphdr' := by
  have hlen : ipHdrLen m iphdr = ipHdrLen m' iphdr' := by
    rw [ipHdrLen, h0, ipHdrLen]
  unfold ipHdrCksumValue
  rw [← hlen]
  congr 1
  apply ipCksumFeed_congr
  intro j hj
  by_cases h10 : j = 10
  · subst h10; simp [ipSetHdrCksum, hdrSet16n]
  · by_cases h11 : j = 11
    · subst h11; simp [ipSetHdrCksum, hdrSet16n]
    · rw [ipSetHdrCksum, ipSetHdrCksum, hdrSet16n_of_ne (by omega) (by omega),
        hdrSet16n_of_ne (by omega) (by omega)]
      exact h j hj h10 h11

end Pptk.Iphdr
