import Pptk.Iphdr.Cksum
import Pptk.Lib.Ones

/-!
# The checksum of the code is that of RFC 1071

`ip_cksum_feed` adds 16-bit words in the byte order of the host, and
`ip_cksum_postprocess` swaps the bytes of the result. On a little-endian host every
word is 256 times the big-endian word, up to a multiple of `2^16 - 1`, and so is the
sum; swapping the bytes takes the factor out again. `HostSum e s t` says that `s` is
the sum in host order where `t` is the one of big-endian words.
-/

namespace Pptk.Iphdr

open Pptk.Lib List

/-! ## Sums in host order -/

/-- The words that `ip_cksum_feed` adds. -/
def hostWords (e : Endian) (m : Mem) (i : ℕ) : ℕ → List ℕ
  | 0 => []
  | 1 => [ntohs e ((m i).toNat * 256)]
  | n + 2 => hdrGet16h e m i :: hostWords e m (i + 2) n

/-- `s` in the byte order of the host is what `t` is in network byte order. -/
structure HostSum (e : Endian) (s t : ℕ) : Prop where
  big : e = .big → s = t
  little : e = .little → 256 * s % 65535 = t % 65535
  zero : s = 0 ↔ t = 0

theorem HostSum.nil (e : Endian) : HostSum e 0 0 := ⟨fun _ => rfl, fun _ => rfl, Iff.rfl⟩

variable {e : Endian} {s t x : ℕ}

theorem HostSum.add {s' t' : ℕ} (h : HostSum e s t) (h' : HostSum e s' t') :
    HostSum e (s + s') (t + t') := by
  refine ⟨fun he => by rw [h.big he, h'.big he], fun he => ?_, ?_⟩
  · have h1 := h.little he
    have h2 := h'.little he
    omega
  · have h1 := h.zero
    have h2 := h'.zero
    omega

theorem HostSum.append {ws ws' : List ℕ} {t' : ℕ} (h : HostSum e ws.sum t)
    (h' : HostSum e ws'.sum t') : HostSum e (ws ++ ws').sum (t + t') := by
  rw [sum_append]
  exact h.add h'

theorem hostSum_hdrGet16h (e : Endian) (m : Mem) (i : ℕ) :
    HostSum e (hdrGet16h e m i) (hdrGet16n m i) := by
  refine ⟨?_, ?_, ?_⟩
  · rintro rfl
    rfl
  · rintro rfl
    simp only [hdrGet16h, hdrGet16n]
    omega
  · cases e <;> simp only [hdrGet16h, hdrGet16n]
    omega

theorem ntohs_little_mod (hx : x < 65536) :
    256 * ntohs .little x % 65535 = x % 65535 ∧ ntohs .little x % 65535 = 256 * x % 65535 := by
  obtain ⟨h, l, rfl, hl⟩ : ∃ h l, x = 256 * h + l ∧ l < 256 :=
    ⟨x / 256, x % 256, by omega, by omega⟩
  have hlow : (256 * h + l) % 256 = l := by omega
  have hhigh : (256 * h + l) / 256 % 256 = h := by omega
  rw [ntohs, hlow, hhigh]
  omega

theorem ntohs_little_compl (hx : x ≤ 65535) :
    ntohs .little (65535 - x) = 65535 - ntohs .little x := by
  obtain ⟨h, l, rfl, hl⟩ : ∃ h l, x = 256 * h + l ∧ l < 256 :=
    ⟨x / 256, x % 256, by omega, by omega⟩
  have hlow : (256 * h + l) % 256 = l := by omega
  have hhigh : (256 * h + l) / 256 % 256 = h := by omega
  have hlow' : (65535 - (256 * h + l)) % 256 = 255 - l := by omega
  have hhigh' : (65535 - (256 * h + l)) / 256 % 256 = 255 - h := by omega
  simp only [ntohs, hlow, hhigh, hlow', hhigh']
  omega

theorem hostSum_ntohs (e : Endian) (hx : x < 65536) : HostSum e (ntohs e x) x := by
  refine ⟨?_, ?_, ?_⟩
  · rintro rfl
    exact Nat.mod_eq_of_lt hx
  · rintro rfl
    exact (ntohs_little_mod hx).1
  · cases e <;> simp only [ntohs] <;> omega

theorem hostSum_hostWords (e : Endian) (m : Mem) (i n : ℕ) :
    HostSum e (hostWords e m i n).sum (wordSum m i n) := by
  fun_induction hostWords e m i n with
  | case1 => exact .nil e
  | case2 i =>
    have hlt := (m i).toNat_lt
    have h := hostSum_ntohs e (x := 256 * (m i).toNat) (by omega)
    rw [Nat.mul_comm] at h
    simpa [wordSum, words, Nat.mul_comm] using h
  | case3 i n ih =>
    rw [sum_cons, wordSum, words, sum_cons]
    exact (hostSum_hdrGet16h e m i).add ih

theorem hostWords_le {m : Mem} {i n : ℕ} : (hostWords e m i n).sum ≤ 65535 * ((n + 1) / 2) := by
  fun_induction hostWords e m i n with
  | case1 => simp
  | case2 i =>
    have hlt := (m i).toNat_lt
    cases e <;> simp [ntohs] <;> omega
  | case3 i n ih =>
    have h1 := (m i).toNat_lt
    have h2 := (m (i + 1)).toNat_lt
    rw [sum_cons]
    have hw : hdrGet16h e m i ≤ 65535 := by cases e <;> simp only [hdrGet16h] <;> omega
    omega

theorem hostWords_append (e : Endian) (m : Mem) (i k n : ℕ) :
    hostWords e m i (2 * k + n) = hostWords e m i (2 * k) ++ hostWords e m (i + 2 * k) n := by
  induction k generalizing i with
  | zero => simp [hostWords]
  | succ k ih =>
    rw [show 2 * (k + 1) + n = 2 * k + n + 2 by omega, show 2 * (k + 1) = 2 * k + 2 by omega,
      hostWords, hostWords, ih, cons_append, show i + (2 * k + 2) = i + 2 + 2 * k by omega]

/-! ## `ip_cksum_feed` -/

theorem foldl_add16 (ws : List ℕ) (hs : s < 2 ^ 32) :
    ws.foldl ipCksumAdd16 s = (s + ws.sum) % 2 ^ 32 := by
  induction ws generalizing s with
  | nil => exact (Nat.mod_eq_of_lt hs).symm
  | cons w ws ih =>
    have hlt : ipCksumAdd16 s w < 2 ^ 32 := Nat.mod_lt _ (by norm_num)
    rw [foldl_cons, ih hlt, ipCksumAdd16, sum_cons]
    omega

theorem ipCksumBlock_eq (e : Endian) (m : Mem) (i s : ℕ) :
    ipCksumBlock e m i s = (hostWords e m i 16).foldl ipCksumAdd16 s := rfl

theorem foldl_block (e : Endian) (m : Mem) (i k s : ℕ) :
    (range k).foldl (fun s j => ipCksumBlock e m (i + 16 * j) s) s =
      (hostWords e m i (16 * k)).foldl ipCksumAdd16 s := by
  induction k with
  | zero => rfl
  | succ k ih =>
    rw [range_succ, foldl_append, ih, foldl_cons, foldl_nil, ipCksumBlock_eq,
      show 16 * (k + 1) = 2 * (8 * k) + 16 by omega, hostWords_append, foldl_append,
      show 2 * (8 * k) = 16 * k by omega]

theorem foldl_words (e : Endian) (m : Mem) (i k s : ℕ) :
    (range k).foldl (fun s j => ipCksumAdd16 s (hdrGet16h e m (i + 2 * j))) s =
      (hostWords e m i (2 * k)).foldl ipCksumAdd16 s := by
  induction k with
  | zero => rfl
  | succ k ih =>
    rw [range_succ, foldl_append, ih, foldl_cons, foldl_nil,
      show 2 * (k + 1) = 2 * k + 2 by omega, hostWords_append, foldl_append]
    rfl

theorem ipCksumFeed_eq_mod (e : Endian) (m : Mem) (buf sz : ℕ) (hs : s < 2 ^ 32) :
    ipCksumFeed e m buf sz s = (s + (hostWords e m buf sz).sum) % 2 ^ 32 := by
  obtain ⟨r, hr, hsz⟩ : ∃ r < 2, sz = 2 * (8 * (sz / 16)) + (2 * (sz % 16 / 2) + r) :=
    ⟨sz % 2, by omega, by omega⟩
  rw [← foldl_add16 _ hs]
  conv_rhs => rw [hsz]
  rw [hostWords_append, hostWords_append, foldl_append, foldl_append]
  simp only [ipCksumFeed, foldl_block, foldl_words]
  rw [show 2 * (8 * (sz / 16)) = 16 * (sz / 16) by omega]
  interval_cases r
  · rw [if_neg (by omega)]
    rfl
  · rw [if_pos (by omega), show buf + (sz - 1) = buf + 16 * (sz / 16) + 2 * (sz % 16 / 2) by omega]
    rfl

/-- `ip_cksum_feed` adds the words of the buffer, without an overflow for the lengths that occur. -/
theorem ipCksumFeed_eq (e : Endian) (m : Mem) (buf : ℕ) {sz : ℕ} (hsz : sz ≤ 65535)
    (hs : s ≤ 2 ^ 31) : ipCksumFeed e m buf sz s = s + (hostWords e m buf sz).sum := by
  rw [ipCksumFeed_eq_mod e m buf sz (by omega), Nat.mod_eq_of_lt]
  have := hostWords_le (e := e) (m := m) (i := buf) (n := sz)
  omega

/-! ## `ip_cksum_postprocess` -/

theorem ipCksumFold_eq (h : s < 2 ^ 32) : ipCksumFold 2 s = foldCarry s := by
  have hm : ∀ s : ℕ, s &&& 0xffff = s % 65536 := fun s => by
    rw [show (0xffff : ℕ) = 2 ^ 16 - 1 from rfl, Nat.and_two_pow_sub_one_eq_mod]
  rcases Nat.eq_zero_or_pos s with rfl | hs
  · rfl
  · symm
    simp only [ipCksumFold, hm, Nat.shiftRight_eq_div_pow]
    split_ifs
    · exact foldCarry_unique hs (by omega) (by omega) (by omega)
    · exact foldCarry_unique hs (by omega) (by omega) (by omega)
    · exact foldCarry_unique hs (by omega) (by omega) (by omega)

/-- The result is the complement of the folded big-endian sum. -/
theorem ipCksumPostprocess_eq (h : HostSum e s t) (hs : s < 2 ^ 32) :
    ipCksumPostprocess e s = 65535 - foldCarry t := by
  rw [ipCksumPostprocess, ipCksumFold_eq hs]
  have hle := foldCarry_le s
  cases e with
  | big =>
    rw [h.big rfl] at hle ⊢
    exact Nat.mod_eq_of_lt (by omega)
  | little =>
    rcases Nat.eq_zero_or_pos s with hs0 | hs0
    · rw [hs0, h.zero.mp hs0]
      rfl
    · have ht : 0 < t := Nat.pos_of_ne_zero fun ht => by have := h.zero.mpr ht; omega
      have hmod := h.little rfl
      have hpos := foldCarry_pos hs0
      have hc := foldCarry_mod s
      obtain ⟨h1, h2⟩ := ntohs_little_mod (x := foldCarry s) (by omega)
      have hlt : ntohs .little (foldCarry s) ≤ 65535 := by
        simp only [ntohs]
        omega
      have hne : 0 < ntohs .little (foldCarry s) := by
        have h0 := (hostSum_ntohs .little (x := foldCarry s) (by omega)).zero
        omega
      rw [ntohs_little_compl hle, foldCarry_unique ht hne hlt (by omega)]

/-- The checksum of a buffer is that of RFC 1071: the complement of the one's-complement sum of its
big-endian words. -/
theorem ipCksum_rfc1071 (e : Endian) (m : Mem) (buf : ℕ) {sz : ℕ} (hsz : sz ≤ 65535) :
    ipCksumPostprocess e (ipCksumFeed e m buf sz 0) = 65535 - onesSum (words m buf sz) := by
  have hle := hostWords_le (e := e) (m := m) (i := buf) (n := sz)
  rw [ipCksumFeed_eq e m buf hsz (by omega), Nat.zero_add, onesSum_eq words_le,
    ipCksumPostprocess_eq (hostSum_hostWords e m buf sz) (by omega)]
  rfl

end Pptk.Iphdr
