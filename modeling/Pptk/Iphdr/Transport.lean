import Pptk.Iphdr.Rfc1071

/-!
# TCP and UDP checksums

Models of `tcp_cksum_calc`, `udp_cksum_calc` and their variants for IPv6
(iphdr/ipcksum.c:51-181), and of the functions that write the checksum into the header
(iphdr/ipcksum.h:130-211). `iphdr` is the index of the IP header, `tcphdr` or `udphdr`
that of the segment; lengths are values of the C type `uint16_t`.
-/

namespace Pptk.Iphdr

open Pptk.Lib List

/-! ## 32-bit accessors -/

/-- `hdr_get32h` (hdr.h:14-19). -/
def hdrGet32h (e : Endian) (m : Mem) (i : ℕ) : ℕ :=
  match e with
  | .little => hdrGet16h e m i + 65536 * hdrGet16h e m (i + 2)
  | .big => 65536 * hdrGet16h e m i + hdrGet16h e m (i + 2)

/-- `ntohl` and `htonl`. -/
def ntohl (e : Endian) (x : ℕ) : ℕ :=
  match e with
  | .little => x % 256 * 16777216 + x / 256 % 256 * 65536 + x / 65536 % 256 * 256 +
    x / 16777216 % 256
  | .big => x % 2 ^ 32

/-- The bytes of a `uint32_t` variable. -/
def u32Mem (e : Endian) (x : ℕ) : Mem := fun j =>
  match e with
  | .little => UInt8.ofNat (x / 256 ^ j)
  | .big => UInt8.ofNat (x / 256 ^ (3 - j))

/-- `hdr_get32n` (hdr.h:55-58). -/
def hdrGet32n (m : Mem) (i : ℕ) : ℕ := 65536 * hdrGet16n m i + hdrGet16n m (i + 2)

/-- `hdr_set32n` (hdr.h:65-68). -/
def hdrSet32n (m : Mem) (i v : ℕ) : Mem := hdrSet16n (hdrSet16n m i (v / 65536)) (i + 2) v

theorem hdrGet32h_eq (e : Endian) (m : Mem) (i : ℕ) :
    hdrGet32h e m i = ntohl e (hdrGet32n m i) := by
  have h0 := (m i).toNat_lt
  have h1 := (m (i + 1)).toNat_lt
  have h2 := (m (i + 2)).toNat_lt
  have h3 := (m (i + 2 + 1)).toNat_lt
  cases e <;> simp only [ntohl, hdrGet32h, hdrGet32n, hdrGet16h, hdrGet16n] <;> omega

/-! ## Sums of 32-bit values -/

/-- `ip_cksum_feed32ptr` (ipcksum.h:37-42). -/
def ipCksumFeed32ptr (e : Endian) (m : Mem) (buf sum : ℕ) : ℕ :=
  ipCksumAdd16 (ipCksumAdd16 sum (hdrGet16h e m buf)) (hdrGet16h e m (buf + 2))

/-- `ip_cksum_feed32ptr` on a local variable with value `u32`. -/
def ipCksumFeed32 (e : Endian) (sum u32 : ℕ) : ℕ := ipCksumFeed32ptr e (u32Mem e u32) 0 sum

theorem u32Mem_ntohl (e : Endian) (x : ℕ) {j : ℕ} (hj : j < 4) :
    u32Mem e (ntohl e x) j = UInt8.ofNat (x / 256 ^ (3 - j)) := by
  apply UInt8.toNat_inj.mp
  cases e with
  | little =>
    have h0 : x % 256 < 256 := Nat.mod_lt _ (by norm_num)
    have h1 : x / 256 % 256 < 256 := Nat.mod_lt _ (by norm_num)
    have h2 : x / 65536 % 256 < 256 := Nat.mod_lt _ (by norm_num)
    have h3 : x / 16777216 % 256 < 256 := Nat.mod_lt _ (by norm_num)
    simp only [u32Mem, ntohl, UInt8.toNat_ofNat']
    interval_cases j <;> simp only [Nat.reducePow, Nat.reduceSub, pow_zero, Nat.div_one] <;>
      generalize x % 256 = b0, x / 256 % 256 = b1, x / 65536 % 256 = b2,
        x / 16777216 % 256 = b3 at * <;>
      omega
  | big =>
    simp only [u32Mem, ntohl, UInt8.toNat_ofNat']
    interval_cases j <;> norm_num <;> omega

/-- The two words of a variable, as they are added. -/
def u32Words (e : Endian) (x : ℕ) : List ℕ :=
  [hdrGet16h e (u32Mem e x) 0, hdrGet16h e (u32Mem e x) 2]

theorem ipCksumFeed32_eq (e : Endian) (sum x : ℕ) :
    ipCksumFeed32 e sum x = (u32Words e x).foldl ipCksumAdd16 sum := rfl

theorem hdrGet16h_le (e : Endian) (m : Mem) (i : ℕ) : hdrGet16h e m i ≤ 65535 := by
  have h1 := (m i).toNat_lt
  have h2 := (m (i + 1)).toNat_lt
  cases e <;> simp only [hdrGet16h] <;> omega

theorem ntohs_le (e : Endian) (x : ℕ) : ntohs e x ≤ 65535 := by
  cases e <;> simp only [ntohs] <;> omega

theorem u32Words_sum_le (e : Endian) (x : ℕ) : (u32Words e x).sum ≤ 131070 := by
  have h1 := hdrGet16h_le e (u32Mem e x) 0
  have h2 := hdrGet16h_le e (u32Mem e x) 2
  simp only [u32Words, sum_cons, sum_nil]
  omega

theorem hostSum_ntohl (e : Endian) (x : ℕ) :
    HostSum e (u32Words e (ntohl e x)).sum (x / 65536 % 65536 + x % 65536) := by
  have h0 : hdrGet16n (u32Mem e (ntohl e x)) 0 = x / 65536 % 65536 := by
    simp only [hdrGet16n, u32Mem_ntohl e x (show 0 < 4 by omega),
      u32Mem_ntohl e x (show 0 + 1 < 4 by omega), UInt8.toNat_ofNat', Nat.reducePow, Nat.reduceSub,
      Nat.reduceAdd]
    omega
  have h2 : hdrGet16n (u32Mem e (ntohl e x)) 2 = x % 65536 := by
    simp only [hdrGet16n, u32Mem_ntohl e x (show 2 < 4 by omega),
      u32Mem_ntohl e x (show 2 + 1 < 4 by omega), UInt8.toNat_ofNat', Nat.reducePow, Nat.reduceSub,
      Nat.reduceAdd, Nat.div_one]
    omega
  have h := (hostSum_hdrGet16h e (u32Mem e (ntohl e x)) 0).add
    (hostSum_hdrGet16h e (u32Mem e (ntohl e x)) 2)
  rw [h0, h2] at h
  simpa [u32Words] using h

theorem hostSum_hdrGet32n (e : Endian) (m : Mem) (i : ℕ) :
    HostSum e (u32Words e (ntohl e (hdrGet32n m i))).sum (wordSum m i 4) := by
  have h := hostSum_ntohl e (hdrGet32n m i)
  have h1 := hdrGet16n_lt m i
  have h2 := hdrGet16n_lt m (i + 2)
  rw [show hdrGet32n m i / 65536 % 65536 = hdrGet16n m i by unfold hdrGet32n; omega,
    show hdrGet32n m i % 65536 = hdrGet16n m (i + 2) by unfold hdrGet32n; omega] at h
  exact h

/-! ## Checksums over a pseudo header -/

/-- `ip_src` (iphdr.h:1259-1263). -/
def ipSrc (m : Mem) (ip : ℕ) : ℕ := hdrGet32n m (ip + 12)

/-- `ip_dst` (iphdr.h:1265-1269). -/
def ipDst (m : Mem) (ip : ℕ) : ℕ := hdrGet32n m (ip + 16)

/-- `ipv6_const_src` (iphdr.h:569-573). -/
abbrev ipv6Src (ip : ℕ) : ℕ := ip + 8

/-- `ipv6_const_dst` (iphdr.h:575-579). -/
abbrev ipv6Dst (ip : ℕ) : ℕ := ip + 24

section Calc

variable (e : Endian) (m : Mem) (iphdr iplen hdr len : ℕ)

/-- The checksum of a segment of protocol `proto` over IPv4; `none` is an `abort()`. -/
def cksumCalc (proto : ℕ) : Option ℕ :=
  if iplen < 20 then none
  else
    let sum := ipCksumFeed32 e 0 (ntohl e (ipSrc m iphdr))
    let sum := ipCksumFeed32 e sum (ntohl e (ipDst m iphdr))
    let sum := ipCksumAdd16 sum (ntohs e proto)
    let sum := ipCksumAdd16 sum (ntohs e len)
    some (ipCksumPostprocess e (ipCksumFeed e m hdr len sum))

/-- `tcp_cksum_calc` (ipcksum.c:51-68). -/
def tcpCksumCalc : Option ℕ := cksumCalc e m iphdr iplen hdr len 6

/-- `udp_cksum_calc` (ipcksum.c:117-134). -/
def udpCksumCalc : Option ℕ := cksumCalc e m iphdr iplen hdr len 17

/-- The checksum of a segment of protocol `proto` over IPv6, with the addresses loaded by `load`;
`none` is an `abort()`. -/
def cksumCalc6 (load : ℕ → ℕ) (proto : ℕ) : Option ℕ :=
  if iplen < 40 then none
  else
    let sum := [0, 4, 8, 12].foldl (fun sum k => ipCksumFeed32 e sum (load (ipv6Src iphdr + k))) 0
    let sum := [0, 4, 8, 12].foldl (fun sum k => ipCksumFeed32 e sum (load (ipv6Dst iphdr + k))) sum
    let sum := ipCksumFeed32 e sum (ntohl e len)
    let sum := ipCksumFeed32 e sum (ntohl e proto)
    some (ipCksumPostprocess e (ipCksumFeed e m hdr len sum))

/-- `tcp6_cksum_calc` (ipcksum.c:74-115). -/
def tcp6CksumCalc : Option ℕ :=
  cksumCalc6 e m iphdr iplen hdr len (fun i => ntohl e (hdrGet32n m i)) 6

/-- `udp6_cksum_calc` (ipcksum.c:140-181). The addresses are loaded in host byte order, which comes
to the same. -/
def udp6CksumCalc : Option ℕ := cksumCalc6 e m iphdr iplen hdr len (hdrGet32h e m) 17

end Calc

/-- The sum of the pseudo header of IPv4. -/
def pseudoSum (proto : ℕ) (m : Mem) (iphdr len : ℕ) : ℕ := wordSum m (iphdr + 12) 8 + (proto + len)

/-- The sum of the pseudo header of IPv6. -/
def pseudoSum6 (proto : ℕ) (m : Mem) (iphdr len : ℕ) : ℕ :=
  wordSum m (iphdr + 8) 32 + (len + proto)

section CalcEq

variable {e : Endian} {m : Mem} {iphdr iplen hdr len proto : ℕ}

theorem postprocess_feed {ws : List ℕ} {t : ℕ} (h : HostSum e ws.sum t) (hws : ws.sum < 2 ^ 31)
    (hlen : len ≤ 65535) :
    ipCksumPostprocess e (ipCksumFeed e m hdr len (ws.foldl ipCksumAdd16 0)) =
      65535 - foldCarry (t + wordSum m hdr len) := by
  have hle := hostWords_le (e := e) (m := m) (i := hdr) (n := len)
  rw [foldl_add16 ws (by norm_num), Nat.zero_add, Nat.mod_eq_of_lt (by omega),
    ipCksumFeed_eq e m hdr hlen (by omega)]
  exact ipCksumPostprocess_eq (h.add (hostSum_hostWords e m hdr len)) (by omega)

theorem cksumCalc_eq (hip : 20 ≤ iplen) (hlen : len ≤ 65535) (hproto : proto ≤ 255) :
    cksumCalc e m iphdr iplen hdr len proto =
      some (65535 - foldCarry (pseudoSum proto m iphdr len + wordSum m hdr len)) := by
  have hlast : HostSum e [ntohs e proto, ntohs e len].sum (proto + len) := by
    simpa using (hostSum_ntohs e (x := proto) (by omega)).add (hostSum_ntohs e (x := len)
      (by omega))
  have hsum := ((hostSum_hdrGet32n e m (iphdr + 12)).append
    (hostSum_hdrGet32n e m (iphdr + 16))).append hlast
  have hle : (u32Words e (ntohl e (hdrGet32n m (iphdr + 12))) ++
      u32Words e (ntohl e (hdrGet32n m (iphdr + 16))) ++ [ntohs e proto, ntohs e len]).sum <
        2 ^ 31 := by
    have h1 := u32Words_sum_le e (ntohl e (hdrGet32n m (iphdr + 12)))
    have h2 := u32Words_sum_le e (ntohl e (hdrGet32n m (iphdr + 16)))
    have h3 := ntohs_le e proto
    have h4 := ntohs_le e len
    simp only [sum_append, sum_cons, sum_nil]
    omega
  have hadd : ∀ s a b, ipCksumAdd16 (ipCksumAdd16 s a) b = [a, b].foldl ipCksumAdd16 s :=
    fun _ _ _ => rfl
  simp only [cksumCalc, if_neg (show ¬iplen < 20 by omega), ipCksumFeed32_eq, hadd, ipSrc, ipDst,
    ← foldl_append]
  rw [postprocess_feed hsum hle hlen, pseudoSum, wordSum_append m (iphdr + 12) 2 4]

/-- The words of an IPv6 address. -/
def addr6Words (e : Endian) (m : Mem) (i : ℕ) : List ℕ :=
  [0, 4, 8, 12].flatMap fun k => u32Words e (ntohl e (hdrGet32n m (i + k)))

theorem hostSum_addr6Words (e : Endian) (m : Mem) (i : ℕ) :
    HostSum e (addr6Words e m i).sum (wordSum m i 16) := by
  have h := ((hostSum_hdrGet32n e m (i + 0)).append (hostSum_hdrGet32n e m (i + 4))).append
    ((hostSum_hdrGet32n e m (i + 8)).append (hostSum_hdrGet32n e m (i + 12)))
  have hsplit : wordSum m i 16 = wordSum m (i + 0) 4 + wordSum m (i + 4) 4 +
      (wordSum m (i + 8) 4 + wordSum m (i + 12) 4) := by
    rw [wordSum_append m i 4 8, wordSum_append m i 2 4, wordSum_append m (i + 8) 2 4]
    rfl
  rw [hsplit]
  simpa [addr6Words, append_assoc] using h

theorem addr6Words_sum_le (e : Endian) (m : Mem) (i : ℕ) : (addr6Words e m i).sum ≤ 524280 := by
  have h := fun k => u32Words_sum_le e (ntohl e (hdrGet32n m (i + k)))
  have h0 := h 0
  have h4 := h 4
  have h8 := h 8
  have h12 := h 12
  simp only [addr6Words, flatMap_cons, flatMap_nil, sum_append, sum_nil]
  omega

theorem foldl_addr6 (e : Endian) (m : Mem) (i s : ℕ) :
    [0, 4, 8, 12].foldl (fun sum k => ipCksumFeed32 e sum (ntohl e (hdrGet32n m (i + k)))) s =
      (addr6Words e m i).foldl ipCksumAdd16 s := by
  simp only [addr6Words, flatMap_cons, flatMap_nil, append_nil, foldl_append,
    foldl_cons, foldl_nil, ipCksumFeed32_eq]

theorem cksumCalc6_eq (hip : 40 ≤ iplen) (hlen : len ≤ 65535) (hproto : proto ≤ 255) :
    cksumCalc6 e m iphdr iplen hdr len (fun i => ntohl e (hdrGet32n m i)) proto =
      some (65535 - foldCarry (pseudoSum6 proto m iphdr len + wordSum m hdr len)) := by
  have hval : ∀ x ≤ 65535, HostSum e (u32Words e (ntohl e x)).sum x := fun x hx => by
    have h := hostSum_ntohl e x
    rwa [show x / 65536 % 65536 + x % 65536 = x by omega] at h
  have hsum := (((hostSum_addr6Words e m (iphdr + 8)).append
    (hostSum_addr6Words e m (iphdr + 24))).append (hval len hlen)).append (hval proto (by omega))
  have hle : (addr6Words e m (iphdr + 8) ++ addr6Words e m (iphdr + 24) ++
      u32Words e (ntohl e len) ++ u32Words e (ntohl e proto)).sum < 2 ^ 31 := by
    have h1 := addr6Words_sum_le e m (iphdr + 8)
    have h2 := addr6Words_sum_le e m (iphdr + 24)
    have h3 := u32Words_sum_le e (ntohl e len)
    have h4 := u32Words_sum_le e (ntohl e proto)
    simp only [sum_append]
    omega
  simp only [cksumCalc6, if_neg (show ¬iplen < 40 by omega), foldl_addr6]
  simp only [ipCksumFeed32_eq, ← foldl_append]
  rw [postprocess_feed hsum hle hlen, pseudoSum6, wordSum_append m (iphdr + 8) 8 16,
    ← Nat.add_assoc _ len]

/-- The TCP checksum is the complement of the folded sum of a pseudo header and the segment. -/
theorem tcpCksumCalc_eq (hip : 20 ≤ iplen) (hlen : len ≤ 65535) :
    tcpCksumCalc e m iphdr iplen hdr len =
      some (65535 - foldCarry (pseudoSum 6 m iphdr len + wordSum m hdr len)) :=
  cksumCalc_eq hip hlen (by norm_num)

/-- The same for UDP. -/
theorem udpCksumCalc_eq (hip : 20 ≤ iplen) (hlen : len ≤ 65535) :
    udpCksumCalc e m iphdr iplen hdr len =
      some (65535 - foldCarry (pseudoSum 17 m iphdr len + wordSum m hdr len)) :=
  cksumCalc_eq hip hlen (by norm_num)

/-- The same for TCP over IPv6. -/
theorem tcp6CksumCalc_eq (hip : 40 ≤ iplen) (hlen : len ≤ 65535) :
    tcp6CksumCalc e m iphdr iplen hdr len =
      some (65535 - foldCarry (pseudoSum6 6 m iphdr len + wordSum m hdr len)) :=
  cksumCalc6_eq hip hlen (by norm_num)

/-- The same for UDP over IPv6. -/
theorem udp6CksumCalc_eq (hip : 40 ≤ iplen) (hlen : len ≤ 65535) :
    udp6CksumCalc e m iphdr iplen hdr len =
      some (65535 - foldCarry (pseudoSum6 17 m iphdr len + wordSum m hdr len)) := by
  rw [udp6CksumCalc, show hdrGet32h e m = fun i => ntohl e (hdrGet32n m i) from
    funext (hdrGet32h_eq e m)]
  exact cksumCalc6_eq hip hlen (by norm_num)

theorem ipHdrCksumCalc_eq (hlen : ipHdrLen m iphdr ≤ iplen) :
    ipHdrCksumCalc e m iphdr iplen =
      some (65535 - foldCarry (wordSum m iphdr (ipHdrLen m iphdr))) := by
  have hle := ipHdrLen_le m iphdr
  rw [ipHdrCksumCalc, if_neg (by omega), ipCksum_rfc1071 e m iphdr (by omega), onesSum_eq words_le]
  rfl

end CalcEq

/-! ## Writing the checksum -/

/-- `tcp_set_cksum` (iphdr.h:1387-1391). -/
def tcpSetCksum (m : Mem) (tcphdr checksum : ℕ) : Mem := hdrSet16n m (tcphdr + 16) checksum

/-- `udp_set_cksum` (iphdr.h:1435-1439). -/
def udpSetCksum (m : Mem) (udphdr cksum : ℕ) : Mem := hdrSet16n m (udphdr + 6) cksum

section SetCalc

variable (e : Endian) (m : Mem) (iphdr iplen hdr len : ℕ)

/-- The checksum that `cksumOf` computes with a zero in the field that `set` writes, written there;
`none` is an `abort()` for a header or segment that is too short. -/
def setCksumCalc (minIplen minLen : ℕ) (set : Mem → ℕ → ℕ → Mem)
    (cksumOf : Mem → ℕ → ℕ → ℕ → ℕ → Option ℕ) : Option Mem :=
  if iplen < minIplen then none
  else if len < minLen then none
  else
    let m := set m hdr 0
    (cksumOf m iphdr iplen hdr len).map fun cksum => set m hdr cksum

/-- `tcp_set_cksum_calc` (ipcksum.h:130-143). -/
def tcpSetCksumCalc : Option Mem :=
  setCksumCalc m iphdr iplen hdr len 20 20 tcpSetCksum (tcpCksumCalc e)

/-- `tcp6_set_cksum_calc` (ipcksum.h:145-158). -/
def tcp6SetCksumCalc : Option Mem :=
  setCksumCalc m iphdr iplen hdr len 40 20 tcpSetCksum (tcp6CksumCalc e)

/-- `udp_set_cksum_calc` (ipcksum.h:183-196). -/
def udpSetCksumCalc : Option Mem :=
  setCksumCalc m iphdr iplen hdr len 20 8 udpSetCksum (udpCksumCalc e)

/-- `udp6_set_cksum_calc` (ipcksum.h:198-211). -/
def udp6SetCksumCalc : Option Mem :=
  setCksumCalc m iphdr iplen hdr len 40 8 udpSetCksum (udp6CksumCalc e)

end SetCalc

end Pptk.Iphdr
