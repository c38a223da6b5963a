import Pptk.Ipfrag.Packet
import Pptk.Iphdr.Cksum

/-!
# The IPv4 fragmenter

Model of `fragment4` (ipfrag/ipfrag.c:11-123): the checks on the frame and on
the descriptors, then one loop that allocates the packets and one that fills
them. `alloc i` is what the `i`-th call of `allocif_alloc` returns, a packet with
arbitrary contents or `NULL`.
-/

namespace Pptk.Ipfrag

open Pptk.Lib Pptk.Iphdr List Option

/-! ## Rewriting a copied header -/

/-- `ip_set_frag_off`, `ip_set_more_frags`, `ip_set_total_len` and `ip_set_hdr_cksum_calc` in a row
(ipfrag.c:115-118, ipreass.c:62-65 and the same lines of the other engines). -/
def rewriteHeader (e : Endian) (m : Mem) (ip fragOff : ℕ) (more : Bool) (totalLen hdrLen : ℕ) :
    Option Mem := do
  let m ← ipSetFragOff m ip fragOff
  let m := ipSetMoreFrags m ip more
  let m := ipSetTotalLen m ip totalLen
  ipSetHdrCksumCalc e m ip hdrLen

/-- `m'` is `m` with new fields in the header at `ip`. -/
structure HeaderRewritten (e : Endian) (m m' : Mem) (ip fragOff : ℕ) (more : Bool)
    (totalLen : ℕ) : Prop where
  fragOff : ipFragOff m' ip = fragOff
  more : ipMoreFrags m' ip = more
  totalLen : ipTotalLen m' ip = totalLen
  flags : m' (ip + 6) &&& 0xC0 = m (ip + 6) &&& 0xC0
  cksum : m' = ipSetHdrCksum m' ip (ipHdrCksumValue e m' ip)
  other : ∀ j, j ≠ ip + 2 → j ≠ ip + 3 → j ≠ ip + 6 → j ≠ ip + 7 → j ≠ ip + 10 → j ≠ ip + 11 →
    m' j = m j

variable {m m' : Mem} {ip ip' totalLen : ℕ} {e : Endian} {alloc : ℕ → Option Packet}

theorem ipFragOff_congr (h0 : m (ip + 6) = m' (ip' + 6)) (h1 : m (ip + 7) = m' (ip' + 7)) :
    ipFragOff m ip = ipFragOff m' ip' := by
  rw [ipFragOff, ipFragOff, hdrGet16n_congr h0 h1]

theorem ipMoreFrags_congr (h0 : m (ip + 6) = m' (ip' + 6)) :
    ipMoreFrags m ip = ipMoreFrags m' ip' := by
  rw [ipMoreFrags, ipMoreFrags, h0]

theorem ipHdrLen_congr (h0 : m ip = m' ip') : ipHdrLen m ip = ipHdrLen m' ip' := by
  rw [ipHdrLen, ipHdrLen, h0]

/-- The four header stores that the fragmenter and the engines make after copying a header set the
four fields and change no other byte. -/
theorem rewriteHeader_spec (e : Endian) (m : Mem) (ip : ℕ) {fragOff hdrLen : ℕ} (more : Bool)
    (halign : fragOff % 8 = 0) (hoff : fragOff < 65536) (htotal : totalLen < 65536)
    (hlen : ipHdrLen m ip = hdrLen) (h20 : 20 ≤ hdrLen) :
    ∃ m', rewriteHeader e m ip fragOff more totalLen hdrLen = some m' ∧
      HeaderRewritten e m m' ip fragOff more totalLen := by
  obtain ⟨m1, h1, hoff1, -, hflags1, hne1⟩ := ipSetFragOff_spec m ip halign hoff
  obtain ⟨hmore2, hoff2, hflags2, hne2⟩ := ipSetMoreFrags_spec m1 ip more
  set m2 := ipSetMoreFrags m1 ip more
  have hne3 : ∀ j, j ≠ ip + 2 → j ≠ ip + 3 → ipSetTotalLen m2 ip totalLen j = m2 j :=
    fun j h h' => ipSetTotalLen_of_ne h h'
  have htot3 := ipTotalLen_ipSetTotalLen m2 ip totalLen
  set m3 := ipSetTotalLen m2 ip totalLen
  have hlen3 : ipHdrLen m3 ip = hdrLen := by
    rw [← hlen]
    apply ipHdrLen_congr
    rw [hne3 ip (by omega) (by omega), hne2 ip (by omega), hne1 ip (by omega) (by omega)]
  have hval : ∀ v, ipHdrCksumValue e (ipSetHdrCksum m3 ip v) ip = ipHdrCksumValue e m3 ip :=
    fun v => ipHdrCksumValue_congr (ipSetHdrCksum_of_ne (by omega) (by omega))
      fun j _ h10 h11 => ipSetHdrCksum_of_ne (by omega) (by omega)
  refine ⟨ipSetHdrCksum m3 ip (ipHdrCksumValue e m3 ip), ?_, ?_⟩
  · simp only [rewriteHeader, h1, bind_eq_bind, bind_some]
    exact ipSetHdrCksumCalc_eq e m3 h20 hlen3.le
  have hne4 : ∀ j, j ≠ ip + 10 → j ≠ ip + 11 →
      ipSetHdrCksum m3 ip (ipHdrCksumValue e m3 ip) j = m3 j :=
    fun j h h' => ipSetHdrCksum_of_ne h h'
  set m4 := ipSetHdrCksum m3 ip (ipHdrCksumValue e m3 ip)
  have h46 : m4 (ip + 6) = m2 (ip + 6) := by
    rw [hne4 _ (by omega) (by omega), hne3 _ (by omega) (by omega)]
  have h47 : m4 (ip + 7) = m2 (ip + 7) := by
    rw [hne4 _ (by omega) (by omega), hne3 _ (by omega) (by omega)]
  refine ⟨?_, ?_, ?_, ?_, ?_, ?_⟩
  · rw [ipFragOff_congr h46 h47, hoff2, hoff1]
  · rw [ipMoreFrags_congr h46, hmore2]
  · rw [ipTotalLen, hdrGet16n_congr (hne4 (ip + 2) (by omega) (by omega))
      (hne4 (ip + 2 + 1) (by omega) (by omega))]
    exact htot3.trans (Nat.mod_eq_of_lt htotal)
  · rw [h46, hflags2, hflags1]
  · rw [hval, ipSetHdrCksum_ipSetHdrCksum]
  · intro j h2 h3 h6 h7 h10 h11
    rw [hne4 j h10 h11, hne3 j h2 h3, hne2 j h6, hne1 j h6 h7]

theorem rewriteHeader_mod (e : Endian) (m : Mem) (ip fragOff : ℕ) (more : Bool)
    (totalLen hdrLen : ℕ) :
    rewriteHeader e m ip fragOff more (totalLen % 65536) hdrLen =
      rewriteHeader e m ip fragOff more totalLen hdrLen := by
  have hset : ∀ m : Mem, ipSetTotalLen m ip (totalLen % 65536) = ipSetTotalLen m ip totalLen :=
    fun m => hdrSet16n_mod m (ip + 2) totalLen
  simp only [rewriteHeader, hset]

theorem ipSetHdrCksumCalc_eq_some {iplen : ℕ} (h : ipSetHdrCksumCalc e m ip iplen = some m') :
    20 ≤ iplen ∧ ∃ v, m' = ipSetHdrCksum (ipSetHdrCksum m ip 0) ip v := by
  unfold ipSetHdrCksumCalc at h
  split_ifs at h with h20
  obtain ⟨v, -, hv⟩ := map_eq_some_iff.mp h
  exact ⟨by omega, v, hv.symm⟩

theorem rewriteHeader_eq_some {hdrLen : ℕ} {more : Bool}
    (h : rewriteHeader e m ip 0 more totalLen hdrLen = some m') :
    20 ≤ hdrLen ∧ m' ip = m ip ∧ ipTotalLen m' ip = totalLen % 65536 := by
  obtain ⟨m1, h1, -, -, -, hne1⟩ := ipSetFragOff_spec m ip (v := 0) rfl (by omega)
  obtain ⟨-, -, -, hne2⟩ := ipSetMoreFrags_spec m1 ip more
  simp only [rewriteHeader, h1, bind_eq_bind, bind_some] at h
  obtain ⟨h20, v, rfl⟩ := ipSetHdrCksumCalc_eq_some h
  have hne : ∀ j, j ≠ ip + 10 → j ≠ ip + 11 →
      ipSetHdrCksum (ipSetHdrCksum (ipSetTotalLen (ipSetMoreFrags m1 ip more) ip totalLen) ip 0) ip
        v j = ipSetTotalLen (ipSetMoreFrags m1 ip more) ip totalLen j := fun j h10 h11 => by
    rw [ipSetHdrCksum_of_ne h10 h11, ipSetHdrCksum_of_ne h10 h11]
  refine ⟨h20, ?_, ?_⟩
  · rw [hne ip (by omega) (by omega), ipSetTotalLen_of_ne (by omega) (by omega), hne2 ip (by omega),
      hne1 ip (by omega) (by omega)]
  · rw [ipTotalLen, hdrGet16n_congr (hne (ip + 2) (by omega) (by omega))
      (hne (ip + 2 + 1) (by omega) (by omega))]
    exact ipTotalLen_ipSetTotalLen _ ip totalLen

/-- The rewritten header only depends on the bytes that are not rewritten. -/
theorem HeaderRewritten.ext {n n' : Mem} {fragOff : ℕ} {more : Bool}
    (hm : HeaderRewritten e m m' ip fragOff more totalLen)
    (hn : HeaderRewritten e n n' ip fragOff more totalLen) (h20 : 20 ≤ ipHdrLen m ip)
    (hflags : m (ip + 6) &&& 0xC0 = n (ip + 6) &&& 0xC0)
    (hother : ∀ j < ipHdrLen m ip, j ≠ 2 → j ≠ 3 → j ≠ 6 → j ≠ 7 → j ≠ 10 → j ≠ 11 →
      m (ip + j) = n (ip + j)) : ∀ j < ipHdrLen m ip, m' (ip + j) = n' (ip + j) := by
  have hoff : m' (ip + 6) = n' (ip + 6) ∧ m' (ip + 7) = n' (ip + 7) :=
    flags_ext ((hm.flags.trans hflags).trans hn.flags.symm) (hm.more.trans hn.more.symm)
      (hm.fragOff.trans hn.fragOff.symm)
  have htotal : m' (ip + 2) = n' (ip + 2) ∧ m' (ip + 3) = n' (ip + 3) :=
    hdrGet16n_inj (hm.totalLen.trans hn.totalLen.symm)
  have hrest : ∀ j < ipHdrLen m ip, j ≠ 10 → j ≠ 11 → m' (ip + j) = n' (ip + j) := by
    intro j hj h10 h11
    by_cases h2 : j = 2
    · exact h2 ▸ htotal.1
    by_cases h3 : j = 3
    · exact h3 ▸ htotal.2
    by_cases h6 : j = 6
    · exact h6 ▸ hoff.1
    by_cases h7 : j = 7
    · exact h7 ▸ hoff.2
    rw [hm.other (ip + j) (by omega) (by omega) (by omega) (by omega) (by omega) (by omega),
      hn.other (ip + j) (by omega) (by omega) (by omega) (by omega) (by omega) (by omega)]
    exact hother j hj h2 h3 h6 h7 h10 h11
  have h0 : m' ip = n' ip := hrest 0 (by omega) (by omega) (by omega)
  have hlen : ipHdrLen m' ip = ipHdrLen m ip := ipHdrLen_congr (hm.other ip (by omega) (by omega)
    (by omega) (by omega) (by omega) (by omega))
  have hval : ipHdrCksumValue e m' ip = ipHdrCksumValue e n' ip :=
    ipHdrCksumValue_congr h0 fun j hj h10 h11 => hrest j (hlen ▸ hj) h10 h11
  intro j hj
  by_cases h10 : j = 10
  · rw [h10, hm.cksum, hn.cksum, hval]
    simp [ipSetHdrCksum, hdrSet16n]
  by_cases h11 : j = 11
  · rw [h11, hm.cksum, hn.cksum, hval]
    simp [ipSetHdrCksum, hdrSet16n]
  exact hrest j hj h10 h11

theorem rewriteHeader_copy (e : Endian) {n : Mem} {hdrLen : ℕ} (more : Bool) (totalLen : ℕ)
    (hcopy : ∀ j < ip + hdrLen, m j = n j) (hlen : ipHdrLen n ip = hdrLen) (h20 : 20 ≤ hdrLen) :
    ∃ m' n', rewriteHeader e m ip 0 more totalLen hdrLen = some m' ∧
      rewriteHeader e n ip 0 more totalLen hdrLen = some n' ∧ ∀ j < ip + hdrLen, m' j = n' j := by
  have hlen' : ipHdrLen m ip = hdrLen := (ipHdrLen_congr (hcopy ip (by omega))).trans hlen
  have hlt : totalLen % 65536 < 65536 := Nat.mod_lt _ (by omega)
  obtain ⟨m', hm, hrm⟩ := rewriteHeader_spec e m ip more (Nat.zero_mod 8) (by omega) hlt hlen' h20
  obtain ⟨n', hn, hrn⟩ := rewriteHeader_spec e n ip more (Nat.zero_mod 8) (by omega) hlt hlen h20
  rw [rewriteHeader_mod] at hm hn
  refine ⟨m', n', hm, hn, fun j hj => ?_⟩
  by_cases hip : j < ip
  · rw [hrm.other j (by omega) (by omega) (by omega) (by omega) (by omega) (by omega),
      hrn.other j (by omega) (by omega) (by omega) (by omega) (by omega) (by omega), hcopy j hj]
  · have := hrm.ext hrn (hlen' ▸ h20) (by rw [hcopy (ip + 6) (by omega)])
      (fun j hj _ _ _ _ _ _ => hcopy (ip + j) (by omega)) (j - ip) (by omega)
    rwa [Nat.add_sub_of_le (not_lt.mp hip)] at this

/-! ## `fragment4` -/

/-- `struct fragment` (ipfrag.h:6-10). -/
structure Fragment where
  datastart : ℕ
  datalen : ℕ
  pkt : Option Packet

/-- The payload range of a descriptor. -/
def Fragment.range (frag : Fragment) : ℕ × ℕ := (frag.datastart, frag.datalen)

/-- How a call of `fragment4` ends without a result. -/
inductive Fragment4Error
  /-- `abort()` behind the check with this number; it printed the number and
      the value, if there is one. -/
  | check (number : ℕ) (value : Option ℕ)
  /-- `abort()` in `ip_hdr_cksum_calc` or in a header setter. -/
  | callee
  /-- `frags[i].pkt->data` with `frags[i].pkt == NULL`; the source tests the
      pointer after this store. -/
  | nullPkt
deriving DecidableEq, Repr

/-- The checks on the frame (ipfrag.c:20-61). -/
def frameError (e : Endian) (ether : Mem) (sz : ℕ) : Option Fragment4Error :=
  let iphdrlen := ipHdrLen ether ipOff
  if etherType ether 0 ≠ etherTypeIp then some (.check 1 (some (etherType ether 0)))
  else if ipVersion ether ipOff ≠ 4 then some (.check 2 none)
  else if iphdrlen < ipHdrMinlen then some (.check 3 none)
  else if etherHdrLen + iphdrlen > sz then some (.check 4 none)
  else if ipDontFrag ether ipOff then some (.check 5 none)
  else if ipMoreFrags ether ipOff then some (.check 6 none)
  else if ipFragOff ether ipOff ≠ 0 then some (.check 7 none)
  else match ipHdrCksumCalc e ether ipOff iphdrlen with
    | none => some .callee
    | some cksum => if cksum ≠ 0 then some (.check 8 none) else none

/-- The checks on descriptor `i` (ipfrag.c:66-85). -/
def fragmentError (datamax : ℕ) (frag : Fragment) (i : ℕ) : Option Fragment4Error :=
  if frag.datastart % 8 ≠ 0 then some (.check 9 none)
  else if frag.datastart > datamax then some (.check 10 none)
  else if frag.datastart + frag.datalen > datamax then some (.check 11 (some i))
  else if frag.pkt.isSome then some (.check 12 none)
  else none

/-- The loop that allocates the packets (ipfrag.c:87-105). -/
def allocFragments (alloc : ℕ → Option Packet) :
    ℕ → List Fragment → Except Fragment4Error (List (Fragment × Packet))
  | _, [] => .ok []
  | i, frag :: frags =>
    match alloc i with
    | none => .error .nullPkt
    | some pkt => do
      let rest ← allocFragments alloc (i + 1) frags
      .ok ((frag, pkt) :: rest)

/-- The body of the loop that fills the packets (ipfrag.c:108-120). -/
def fillFragment (e : Endian) (ether : Mem) (iphdrlen datamax : ℕ) (frag : Fragment)
    (pkt : Packet) : Except Fragment4Error Fragment :=
  let data := memcpy pkt.data 0 ether 0 (etherHdrLen + iphdrlen)
  match rewriteHeader e data ipOff frag.datastart (frag.datastart + frag.datalen < datamax)
      (iphdrlen + frag.datalen) iphdrlen with
  | none => .error .callee
  | some data =>
    let pay2 := ipPayload data ipOff
    let data := memcpy data pay2 ether (ipPayload ether ipOff + frag.datastart) frag.datalen
    .ok { frag with
      pkt := some { pkt with sz := etherHdrLen + iphdrlen + frag.datalen, data := data } }

/-- `fragment4` (ipfrag.c:11-123). -/
def fragment4 (e : Endian) (alloc : ℕ → Option Packet) (ether : Mem) (sz : ℕ)
    (frags : List Fragment) : Except Fragment4Error (List Fragment) :=
  match frameError e ether sz with
  | some err => .error err
  | none =>
    let iphdrlen := ipHdrLen ether ipOff
    let datamax := sz - etherHdrLen - iphdrlen
    match frags.zipIdx.findSome? fun (frag, i) => fragmentError datamax frag i with
    | some err => .error err
    | none => do
      let allocated ← allocFragments alloc 0 frags
      allocated.mapM fun (frag, pkt) => fillFragment e ether iphdrlen datamax frag pkt

/-- The payload length of a frame, `datamax`. -/
abbrev payloadLen (ether : Mem) (sz : ℕ) : ℕ := sz - etherHdrLen - ipHdrLen ether ipOff

theorem frameError_eq_none {ether : Mem} {sz : ℕ} (h : frameError e ether sz = none) :
    20 ≤ ipHdrLen ether ipOff ∧ 14 + ipHdrLen ether ipOff ≤ sz ∧ ipMoreFrags ether ipOff = false ∧
      ipFragOff ether ipOff = 0 := by
  unfold frameError at h
  simp only at h
  split_ifs at h with h1 h2 h3 h4 h5 h6 h7
  exact ⟨not_lt.mp h3, not_lt.mp h4, Bool.not_eq_true _ ▸ h6, not_not.mp h7⟩

theorem fragmentError_eq_none {datamax i : ℕ} {frag : Fragment} :
    fragmentError datamax frag i = none ↔
      frag.datastart % 8 = 0 ∧ frag.datastart + frag.datalen ≤ datamax ∧ frag.pkt = none := by
  unfold fragmentError
  split_ifs with h1 h2 h3 h4
  · simp [h1]
  · simp only [false_iff, not_and]; omega
  · simp only [false_iff, not_and]; omega
  · simp only [false_iff, not_and]
    rintro - - h
    simp [h] at h4
  · simp only [true_iff]
    exact ⟨not_not.mp h1, not_lt.mp h3, not_isSome_iff_eq_none.mp h4⟩

/-! ## The packets returned -/

/-- The packet is the piece of the frame of `len` payload bytes from `start`. -/
structure IsPiece (ether : Mem) (sz : ℕ) (start len : ℕ) (pkt : Packet) : Prop where
  aligned : start % 8 = 0
  le : start + len ≤ payloadLen ether sz
  size : pkt.sz = 14 + ipHdrLen ether ipOff + len
  fragOff : ipFragOff pkt.data ipOff = start
  more : ipMoreFrags pkt.data ipOff =
    decide (start + len < payloadLen ether sz)
  totalLen : ipTotalLen pkt.data ipOff = ipHdrLen ether ipOff + len
  flags : pkt.data 20 &&& 0xC0 = ether 20 &&& 0xC0
  header : ∀ j < 14 + ipHdrLen ether ipOff, j ≠ 16 → j ≠ 17 → j ≠ 20 → j ≠ 21 → j ≠ 24 → j ≠ 25 →
    pkt.data j = ether j
  payload : ∀ j < len, pkt.data (14 + ipHdrLen ether ipOff + j) =
    ether (14 + ipHdrLen ether ipOff + start + j)

theorem fillFragment_spec {ether : Mem} {sz : ℕ} {frag : Fragment} (pkt : Packet)
    (hframe : frameError e ether sz = none) (hsz : sz < 65536) (halign : frag.datastart % 8 = 0)
    (hle : frag.datastart + frag.datalen ≤ payloadLen ether sz) :
    ∃ pkt', fillFragment e ether (ipHdrLen ether ipOff) (payloadLen ether sz) frag pkt =
        .ok { frag with pkt := some pkt' } ∧ IsPiece ether sz frag.datastart frag.datalen pkt' := by
  obtain ⟨h20, hfit, -, -⟩ := frameError_eq_none hframe
  set hl := ipHdrLen ether ipOff with hhl
  have hpay : payloadLen ether sz = sz - 14 - hl := rfl
  have hcopy : ∀ j < 14 + hl, memcpy pkt.data 0 ether 0 (14 + hl) j = ether j := fun j hj => by
    rw [memcpy_of_mem (by omega) (by omega), Nat.sub_zero, Nat.zero_add]
  have hlen : ipHdrLen (memcpy pkt.data 0 ether 0 (14 + hl)) ipOff = hl :=
    ipHdrLen_congr (hcopy ipOff (by simp; omega))
  obtain ⟨m, hm, hr⟩ := rewriteHeader_spec e (memcpy pkt.data 0 ether 0 (14 + hl)) ipOff
    (frag.datastart + frag.datalen < payloadLen ether sz) halign (by omega)
    (show hl + frag.datalen < 65536 by omega) hlen h20
  have hpay2 : ipPayload m ipOff = 14 + hl := by
    rw [ipPayload, ipHdrLen_congr ((hr.other ipOff (by simp) (by simp) (by simp) (by simp) (by simp)
      (by simp)).trans (hcopy ipOff (by simp; omega)))]
  have hsrc : ipPayload ether ipOff = 14 + hl := rfl
  -- the payload is written behind the header
  have hlow : ∀ j < 14 + hl, memcpy m (14 + hl) ether (14 + hl + frag.datastart) frag.datalen j =
      m j := fun j hj => memcpy_of_notMem (.inl hj)
  refine ⟨⟨pkt.direction, 14 + hl + frag.datalen,
    memcpy m (14 + hl) ether (14 + hl + frag.datastart) frag.datalen⟩, ?_, ?_⟩
  · simp only [fillFragment, etherHdrLen, hm, hpay2, hsrc]
  refine ⟨halign, hle, rfl, ?_, ?_, ?_, ?_, ?_, ?_⟩
  · exact (ipFragOff_congr (hlow 20 (by omega)) (hlow 21 (by omega))).trans hr.fragOff
  · exact (ipMoreFrags_congr (hlow 20 (by omega))).trans hr.more
  · exact (hdrGet16n_congr (hlow 16 (by omega)) (hlow 17 (by omega))).trans hr.totalLen
  · rw [← hcopy 20 (by omega), ← hr.flags]
    exact congrArg (· &&& 0xC0) (hlow 20 (by omega))
  · intro j hj h16 h17 h20 h21 h24 h25
    rw [← hcopy j hj, ← hr.other j h16 h17 h20 h21 h24 h25]
    exact hlow j hj
  · intro j hj
    refine (memcpy_of_mem (by omega) (by omega)).trans (congrArg ether ?_)
    omega

variable {frags : List Fragment}

theorem map_fst_allocFragments :
    ∀ {i allocated}, allocFragments alloc i frags = .ok allocated →
      allocated.map Prod.fst = frags := by
  induction frags with
  | nil => rintro i _ ⟨⟩; rfl
  | cons frag frags ih =>
    intro i allocated h
    unfold allocFragments at h
    cases hpkt : alloc i with
    | none => simp [hpkt] at h
    | some pkt =>
      cases hrest : allocFragments alloc (i + 1) frags with
      | error err => simp [hpkt, hrest, bind, Except.bind] at h
      | ok rest =>
        simp only [hpkt, hrest, bind, Except.bind, Except.ok.injEq] at h
        rw [← h, map_cons, ih hrest]

theorem allocFragments_isOk (halloc : ∀ i, (alloc i).isSome) (frags : List Fragment) :
    ∀ i, ∃ allocated, allocFragments alloc i frags = .ok allocated := by
  induction frags with
  | nil => exact fun i => ⟨[], rfl⟩
  | cons frag frags ih =>
    intro i
    obtain ⟨pkt, hpkt⟩ := isSome_iff_exists.mp (halloc i)
    obtain ⟨rest, hrest⟩ := ih (i + 1)
    exact ⟨(frag, pkt) :: rest, by simp [allocFragments, hpkt, hrest, bind, Except.bind]⟩

/-- The loop that fills the packets makes each one the piece that its descriptor names. -/
theorem mapM_fillFragment {ether : Mem} {sz : ℕ} (hsz : sz < 65536)
    (hframe : frameError e ether sz = none) (allocated : List (Fragment × Packet))
    (hok : ∀ x ∈ allocated, x.1.datastart % 8 = 0 ∧
      x.1.datastart + x.1.datalen ≤ payloadLen ether sz) :
    ∃ out, (allocated.mapM fun (frag, pkt) =>
        fillFragment e ether (ipHdrLen ether ipOff) (payloadLen ether sz) frag pkt) = .ok out ∧
      out.map Fragment.range = (allocated.map Prod.fst).map Fragment.range ∧
      ∀ frag ∈ out, ∃ pkt, frag.pkt = some pkt ∧
        IsPiece ether sz frag.datastart frag.datalen pkt := by
  induction allocated with
  | nil => exact ⟨[], rfl, rfl, by simp⟩
  | cons x allocated ih =>
    obtain ⟨frag, pkt⟩ := x
    obtain ⟨hx, hrest⟩ := forall_mem_cons.mp hok
    obtain ⟨pkt', hfill, hpiece⟩ := fillFragment_spec pkt hframe hsz hx.1 hx.2
    obtain ⟨out, hout, hrange, hall⟩ := ih hrest
    refine ⟨{ frag with pkt := some pkt' } :: out, ?_, ?_, ?_⟩
    · rw [mapM_cons, hout]
      simp only [hfill]
      rfl
    · simp only [map_cons, hrange]
      rfl
    · exact forall_mem_cons.mpr ⟨⟨pkt', rfl, hpiece⟩, hall⟩

theorem findSome_fragmentError {datamax : ℕ} :
    (frags.zipIdx.findSome? fun (frag, i) => fragmentError datamax frag i) = none ↔
      ∀ frag ∈ frags, frag.datastart % 8 = 0 ∧ frag.datastart + frag.datalen ≤ datamax ∧
        frag.pkt = none := by
  have hmem : ∀ P : Fragment → Prop, (∀ x ∈ frags.zipIdx, P x.1) ↔ ∀ frag ∈ frags, P frag := by
    intro P
    conv_rhs => rw [← zipIdx_map_fst 0 frags]
    exact forall_mem_map.symm
  rw [findSome?_eq_none_iff, ← hmem]
  exact forall₂_congr fun x _ => fragmentError_eq_none

/-- `fragment4` succeeds on an accepted frame with accepted descriptors. -/
theorem fragment4_eq_ok (alloc : ℕ → Option Packet) {ether : Mem} {sz : ℕ} (frags : List Fragment)
    (hsz : sz < 65536) (hframe : frameError e ether sz = none)
    (hfrags : ∀ frag ∈ frags, frag.datastart % 8 = 0 ∧
      frag.datastart + frag.datalen ≤ payloadLen ether sz ∧ frag.pkt = none)
    (halloc : ∀ i, (alloc i).isSome) :
    ∃ out, fragment4 e alloc ether sz frags = .ok out ∧
      out.map Fragment.range = frags.map Fragment.range := by
  obtain ⟨allocated, ha⟩ := allocFragments_isOk halloc frags 0
  have hfst := map_fst_allocFragments ha
  obtain ⟨out, hout, hrange, -⟩ := mapM_fillFragment hsz hframe allocated fun x hx => by
    have := hfrags x.1 (hfst ▸ mem_map_of_mem hx)
    exact ⟨this.1, this.2.1⟩
  refine ⟨out, ?_, hfst ▸ hrange⟩
  simp only [fragment4, hframe, findSome_fragmentError.mpr hfrags, ha, bind, Except.bind]
  exact hout

/-- Every packet that `fragment4` returns is the piece of the frame that its descriptor names. -/
theorem isPiece_of_fragment4 {ether : Mem} {sz : ℕ} {out : List Fragment} (hsz : sz < 65536)
    (h : fragment4 e alloc ether sz frags = .ok out) :
    ∀ frag ∈ out, ∃ pkt, frag.pkt = some pkt ∧
      IsPiece ether sz frag.datastart frag.datalen pkt := by
  unfold fragment4 at h
  cases hframe : frameError e ether sz with
  | some err => simp [hframe] at h
  | none =>
    cases hfind : frags.zipIdx.findSome? fun (frag, i) =>
        fragmentError (payloadLen ether sz) frag i with
    | some err => simp [hframe, hfind] at h
    | none =>
      cases ha : allocFragments alloc 0 frags with
      | error err => simp [hframe, hfind, ha, bind, Except.bind] at h
      | ok allocated =>
        have hfrags := findSome_fragmentError.mp hfind
        have hfst := map_fst_allocFragments ha
        obtain ⟨out', hout, -, hall⟩ := mapM_fillFragment hsz hframe allocated fun x hx => by
          have := hfrags x.1 (hfst ▸ mem_map_of_mem hx)
          exact ⟨this.1, this.2.1⟩
        simp only [hframe, hfind, ha, bind, Except.bind] at h
        obtain rfl : out' = out := Except.ok.inj (hout.symm.trans h)
        exact hall

namespace IsPiece

variable {ether : Mem} {sz start len : ℕ} {pkt : Packet}

theorem hdrLen (h : IsPiece ether sz start len pkt) (h20 : 20 ≤ ipHdrLen ether ipOff) :
    ipHdrLen pkt.data ipOff = ipHdrLen ether ipOff :=
  ipHdrLen_congr (h.header 14 (by omega) (by omega) (by omega) (by omega) (by omega) (by omega)
    (by omega))

/-- An engine does not accept an empty piece. -/
theorem accept_eq_none (h : IsPiece ether sz start 0 pkt) (h20 : 20 ≤ ipHdrLen ether ipOff) :
    pkt.accept = none := by
  rw [Packet.accept_eq_none_iff, Packet.badLength, h.hdrLen h20, h.totalLen]
  simp

/-- What an engine reads out of a piece. -/
theorem accept_eq_some (h : IsPiece ether sz start len pkt) (h20 : 20 ≤ ipHdrLen ether ipOff)
    (hsz : sz < 65536) (hlen : 0 < len) :
    ∃ f, pkt.accept = some f ∧ f.first = start ∧ f.last = start + len - 1 ∧
      f.more = decide (start + len < payloadLen ether sz) := by
  have hle : start + len ≤ sz - 14 - ipHdrLen ether ipOff := h.le
  have hlast : pkt.dataLast = start + len - 1 := by
    rw [Packet.dataLast, h.hdrLen h20, h.totalLen, h.fragOff]
    omega
  have hbad : pkt.badLength = false := by
    simp only [Packet.badLength, h.hdrLen h20, h.totalLen, h.size, Bool.or_eq_false_iff,
      decide_eq_false_iff_not]
    omega
  refine ⟨⟨start, start + len - 1, decide (start + len < payloadLen ether sz), h.aligned, by omega,
    by omega⟩, ?_, rfl, rfl, rfl⟩
  rw [Packet.accept_eq_some_iff]
  exact ⟨hbad, by omega, h.fragOff.symm, hlast.symm, h.more.symm⟩

theorem of_accept (h : IsPiece ether sz start len pkt) (h20 : 20 ≤ ipHdrLen ether ipOff)
    (hsz : sz < 65536) {f : Frag} (hacc : pkt.accept = some f) :
    f.first = start ∧ f.last + 1 = start + len ∧
      (f.more = false ↔ f.last + 1 = payloadLen ether sz) := by
  have hlen : 0 < len := by
    by_contra h0
    obtain rfl := Nat.eq_zero_of_not_pos h0
    rw [h.accept_eq_none h20] at hacc
    cases hacc
  obtain ⟨f', hacc', h1, h2, h3⟩ := h.accept_eq_some h20 hsz hlen
  obtain rfl : f' = f := some.inj (hacc'.symm.trans hacc)
  have hle := h.le
  refine ⟨h1, by omega, ?_⟩
  rw [h3, decide_eq_false_iff_not]
  omega

end IsPiece

end Pptk.Ipfrag
