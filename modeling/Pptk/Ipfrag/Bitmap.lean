import Pptk.Ipfrag.Rfc791

/-!
# The marking loops of the RFC 791 engine on the array of words

`markBits` works on any number of words. Here the bitmap is the array of 128 words that the code has
(ipfrag/rfc791.h:17), and every access is checked. The plain loop over the bits of a fragment, which
the source has beside the three loops (ipfrag/rfc791.c:134-138), is what they are compared with.

Main result: `mark_eq_plain_loop`.
-/

namespace Pptk.Ipfrag

/-- `uint64_t bits[128]`. -/
abbrev Bitmap := Vector (BitVec 64) 128

namespace Bitmap

/-! ## Model -/

/-- `ctx->bits[i/64] |= 1ULL<<(i%64)`; `none` is an access outside of the array. -/
def setBit (bits : Bitmap) (i : ℕ) : Option Bitmap :=
  if h : i / 64 < 128 then some (bits.set (i / 64) (bits[i / 64] ||| (1#64 <<< (i % 64)))) else none

/-- `ctx->bits[i] = UINT64_MAX`. -/
def setWord (bits : Bitmap) (i : ℕ) : Option Bitmap :=
  if h : i < 128 then some (bits.set i (BitVec.allOnes 64)) else none

/-- `for (i = lo; i < hi; i++)`. -/
def loop (body : Bitmap → ℕ → Option Bitmap) (lo hi : ℕ) (bits : Bitmap) : Option Bitmap :=
  (List.range' lo (hi - lo)).foldlM body bits

/-- The marking of a fragment (rfc791.c:121-132, 141-155). -/
def mark (bits : Bitmap) (dataFirst dataLast : ℕ) : Option Bitmap :=
  let firsttotal := (dataFirst + 8 * 64 - 1) / (8 * 64)
  let onepastlasttotal := (dataLast + 1) / (8 * 64)
  let firstmaxbit := firsttotal * 64
  let secondminbit := onepastlasttotal * 64
  let firstmaxbit := if firstmaxbit > (dataLast + 1) / 8 then (dataLast + 1) / 8 else firstmaxbit
  let secondminbit := if secondminbit < dataFirst / 8 then dataFirst / 8 else secondminbit
  (loop setBit (dataFirst / 8) firstmaxbit bits).bind fun bits =>
    (loop setWord firsttotal onepastlasttotal bits).bind fun bits =>
      loop setBit secondminbit ((dataLast + 1) / 8) bits

/-- The plain loop (rfc791.c:134-138). -/
def markPlain (bits : Bitmap) (dataFirst dataLast : ℕ) : Option Bitmap :=
  loop setBit (dataFirst / 8) ((dataLast + 1) / 8) bits

/-! ## Words and bits -/

/-- The words as a function, with zeros behind the array. -/
def words (bits : Bitmap) (i : ℕ) : BitVec 64 := bits[i]?.getD 0

/-- Bit `k` of the bitmap. -/
def bit (bits : Bitmap) (k : ℕ) : Bool := Ipfrag.bit bits.words k

variable {bits bits' : Bitmap} {i hi : ℕ}

theorem words_set {w : BitVec 64} (h : i < 128) :
    words (bits.set i w) = Function.update bits.words i w := by
  funext j
  by_cases hj : j = i
  · subst hj
    simp [words]
  · rw [Function.update_of_ne hj, words, words, Vector.getElem?_set_ne h (Ne.symm hj)]

theorem words_setBit (h : i / 64 < 128) :
    ∃ bits', setBit bits i = some bits' ∧ bits'.words = Ipfrag.setBit bits.words i := by
  refine ⟨_, dif_pos h, ?_⟩
  have hword : bits.words (i / 64) = bits[i / 64] := by simp [words, h]
  rw [words_set h, Ipfrag.setBit, hword]

theorem words_setWord (h : i < 128) :
    ∃ bits', setWord bits i = some bits' ∧
      bits'.words = Function.update bits.words i (BitVec.allOnes 64) :=
  ⟨_, dif_pos h, words_set h⟩

theorem ext_bit (h : ∀ k < 8192, bits.bit k = bits'.bit k) : bits = bits' := by
  apply Vector.ext
  intro i hi
  apply BitVec.eq_of_getLsbD_eq
  intro j hj
  have hbit := h (64 * i + j) (by omega)
  have hdiv : (64 * i + j) / 64 = i := by omega
  have hmod : (64 * i + j) % 64 = j := by omega
  simpa [bit, Ipfrag.bit, words, hdiv, hmod, hi] using hbit

theorem words_loop {lo : ℕ} {body : Bitmap → ℕ → Option Bitmap}
    {f : (ℕ → BitVec 64) → ℕ → ℕ → BitVec 64}
    (hbody : ∀ bits : Bitmap, ∀ i, lo ≤ i → i < hi → ∃ bits', body bits i = some bits' ∧
      bits'.words = f bits.words i) (bits : Bitmap) :
    ∃ bits', loop body lo hi bits = some bits' ∧
      bits'.words = (List.range' lo (hi - lo)).foldl f bits.words := by
  unfold loop
  -- the loop runs over any list of indices between `lo` and `hi`
  have hlist : ∀ l : List ℕ, (∀ i ∈ l, lo ≤ i ∧ i < hi) → ∀ bits : Bitmap,
      ∃ bits', l.foldlM body bits = some bits' ∧ bits'.words = l.foldl f bits.words := by
    intro l
    induction l with
    | nil => exact fun _ bits => ⟨bits, rfl, rfl⟩
    | cons i l ih =>
      intro hl bits
      obtain ⟨h1, h2⟩ := hl i List.mem_cons_self
      obtain ⟨bits1, hb, hw⟩ := hbody bits i h1 h2
      obtain ⟨bits2, hrun, hw2⟩ := ih (fun j hj => hl j (List.mem_cons_of_mem _ hj)) bits1
      refine ⟨bits2, ?_, ?_⟩
      · rw [List.foldlM_cons, hb]
        exact hrun
      · rw [hw2, hw, List.foldl_cons]
  apply hlist
  intro i hi
  rw [List.mem_range'_1] at hi
  omega

theorem words_setBits (lo : ℕ) (h : hi ≤ 8192) (bits : Bitmap) :
    ∃ bits', loop setBit lo hi bits = some bits' ∧ bits'.words = setBits bits.words lo hi :=
  words_loop (fun _ _ _ hi => words_setBit (by omega)) bits

theorem words_setWords (lo : ℕ) (h : hi ≤ 128) (bits : Bitmap) :
    ∃ bits', loop setWord lo hi bits = some bits' ∧ bits'.words = setWords bits.words lo hi :=
  words_loop (fun _ _ _ hi => words_setWord (by omega)) bits

/-- No access is outside of the array, and the words are those of `markBits`. -/
theorem words_markBits (bits : Bitmap) (f : Frag) :
    ∃ bits', bits.mark f.first f.last = some bits' ∧
      bits'.words = markBits bits.words f.first f.last := by
  have hlt := f.lt
  unfold mark markBits
  extract_lets firsttotal onepastlasttotal firstmaxbit secondminbit firstmaxbit' secondminbit'
  have hmax : firstmaxbit' ≤ 8192 := by
    simp only [firstmaxbit']
    split_ifs <;> omega
  obtain ⟨bits1, hb1, hw1⟩ := words_setBits (f.first / 8) hmax bits
  have htotal : onepastlasttotal ≤ 128 := by omega
  obtain ⟨bits2, hb2, hw2⟩ := words_setWords firsttotal htotal bits1
  have hlast : (f.last + 1) / 8 ≤ 8192 := by omega
  obtain ⟨bits3, hb3, hw3⟩ := words_setBits secondminbit' hlast bits2
  refine ⟨bits3, ?_, ?_⟩
  · rw [hb1, Option.bind_some, hb2, Option.bind_some, hb3]
  · rw [hw3, hw2, hw1]

end Bitmap

/-- For every fragment that is accepted and every bitmap, the loops over bits, words and bits access
no word outside of the array and leave the bitmap that the plain loop leaves: the bits from
`first / 8` up to, but not including, `(last + 1) / 8` are set, and the others are as they were. -/
theorem mark_eq_plain_loop (bits : Bitmap) (f : Frag) :
    ∃ bits', bits.mark f.first f.last = some bits' ∧ bits.markPlain f.first f.last = some bits' ∧
      bits'.words = markBits bits.words f.first f.last ∧
      ∀ k, bits'.bit k = (decide (f.first / 8 ≤ k ∧ k < (f.last + 1) / 8) || bits.bit k) := by
  obtain ⟨bits1, hmark, hwords⟩ := bits.words_markBits f
  have hlast : (f.last + 1) / 8 ≤ 8192 := by
    have := f.lt
    omega
  obtain ⟨bits2, hplain, hwords2⟩ := Bitmap.words_setBits (f.first / 8) hlast bits
  have hbit : ∀ k, bits1.bit k =
    (decide (f.first / 8 ≤ k ∧ k < (f.last + 1) / 8) || bits.bit k) := by
    intro k
    rw [Bitmap.bit, hwords, bit_markBits _ f.aligned f.le, Bitmap.bit]
  have hsame : bits2 = bits1 := by
    apply Bitmap.ext_bit
    intro k _
    rw [hbit, Bitmap.bit, hwords2, bit_setBits, Bitmap.bit]
  exact ⟨bits1, hmark, hsame ▸ hplain, hwords, hbit⟩

end Pptk.Ipfrag
