import Pptk.Ipfrag.Reass

/-!
# The RFC 791 bitmap engine

Model of `ipfrag/rfc791.c`: one bit for each 8-byte block of the payload, in
128 words of 64 bits.

Main results: `bit_markBits` and `rfc791ctx_complete_right_iff`.
-/

namespace Pptk.Ipfrag

open Pptk.Lib Pptk.Iphdr Function List

/-- `struct rfc791ctx` (rfc791.h:15-19); word `i` of `bits` for `i < 128`. -/
structure Rfc791ctx where
  mostRestrictingLast : ℕ
  packetList : List Packet
  bits : ℕ → BitVec 64

/-- `rfc791ctx_init` (rfc791.c:74-79). -/
def rfc791ctxInit : Rfc791ctx :=
  { mostRestrictingLast := 65535, packetList := [], bits := fun _ => 0#64 }

/-- `ctx->bits[i/64] |= 1ULL<<(i%64)`. -/
def setBit (bits : ℕ → BitVec 64) (i : ℕ) : ℕ → BitVec 64 :=
  update bits (i / 64) (bits (i / 64) ||| (1#64 <<< (i % 64)))

/-- `for (i = lo; i < hi; i++) ctx->bits[i/64] |= 1ULL<<(i%64)`. -/
def setBits (bits : ℕ → BitVec 64) (lo hi : ℕ) : ℕ → BitVec 64 :=
  (range' lo (hi - lo)).foldl setBit bits

/-- `for (i = lo; i < hi; i++) ctx->bits[i] = UINT64_MAX`. -/
def setWords (bits : ℕ → BitVec 64) (lo hi : ℕ) : ℕ → BitVec 64 :=
  (range' lo (hi - lo)).foldl (fun bits i => update bits i (BitVec.allOnes 64)) bits

/-- The marking of a fragment (rfc791.c:123-155): single bits up to a word boundary, whole words,
single bits behind the last whole word. -/
def markBits (bits : ℕ → BitVec 64) (dataFirst dataLast : ℕ) : ℕ → BitVec 64 :=
  let firsttotal := (dataFirst + 8 * 64 - 1) / (8 * 64)
  let onepastlasttotal := (dataLast + 1) / (8 * 64)
  let firstmaxbit := firsttotal * 64
  let secondminbit := onepastlasttotal * 64
  let firstmaxbit := if firstmaxbit > (dataLast + 1) / 8 then (dataLast + 1) / 8 else firstmaxbit
  let secondminbit := if secondminbit < dataFirst / 8 then dataFirst / 8 else secondminbit
  let bits := setBits bits (dataFirst / 8) firstmaxbit
  let bits := setWords bits firsttotal onepastlasttotal
  setBits bits secondminbit ((dataLast + 1) / 8)

/-- `rfc791ctx_add` (rfc791.c:92-157). -/
def rfc791ctxAdd (ctx : Rfc791ctx) (pkt : Packet) : Rfc791ctx :=
  let ctx := { ctx with packetList := ctx.packetList ++ [pkt] }
  match pkt.accept with
  | none => ctx
  | some f =>
    let ctx :=
      if f.more = false ∧ ctx.mostRestrictingLast > f.last then
        { ctx with mostRestrictingLast := f.last }
      else ctx
    { ctx with bits := markBits ctx.bits f.first f.last }

/-- `ffsll`: one plus the index of the lowest set bit, 0 if there is none. -/
def ffsll (x : BitVec 64) : ℕ :=
  match (range 64).find? fun k => x.getLsbD k with
  | some k => k + 1
  | none => 0

/-- `rfc791ctx_complete` (rfc791.c:159-180). -/
def rfc791ctxComplete (ctx : Rfc791ctx) : Bool :=
  let lastBit := ctx.mostRestrictingLast / 8
  let bitidx := lastBit / 64
  let bitoff := lastBit % 64
  if ctx.mostRestrictingLast = 65535 then false
  else if (range bitidx).any fun i => ctx.bits i ≠ BitVec.allOnes 64 then false
  else ffsll (~~~ctx.bits bitidx) == bitoff + 1

/-! ## Marking -/

/-- Bit `k` of the bitmap. -/
def bit (bits : ℕ → BitVec 64) (k : ℕ) : Bool := (bits (k / 64)).getLsbD (k % 64)

theorem bit_setBit (bits : ℕ → BitVec 64) (i k : ℕ) :
    bit (setBit bits i) k = (decide (k = i) || bit bits k) := by
  unfold bit setBit
  by_cases hw : k / 64 = i / 64
  · rw [hw, update_self, BitVec.getLsbD_or, BitVec.getLsbD_shiftLeft, Bool.or_comm]
    congr 1
    rw [BitVec.getLsbD_one]
    by_cases hk : k = i
    · subst hk; simp; omega
    · have : ¬(k % 64 - i % 64 = 0 ∧ ¬k % 64 < i % 64) := by omega
      simp [hk]
      omega
  · have hk : k ≠ i := by rintro rfl; exact hw rfl
    rw [update_of_ne hw]
    simp [hk]

theorem bit_setBits (bits : ℕ → BitVec 64) (lo hi k : ℕ) :
    bit (setBits bits lo hi) k = (decide (lo ≤ k ∧ k < hi) || bit bits k) := by
  unfold setBits
  by_cases hle : lo ≤ hi
  · obtain ⟨n, rfl⟩ := Nat.exists_eq_add_of_le hle
    rw [Nat.add_sub_cancel_left]
    clear hle
    induction n with
    | zero => simp
    | succ n ih =>
      rw [range'_concat, foldl_append, foldl_cons, foldl_nil, bit_setBit, ih,
        ← Bool.or_assoc, ← Bool.decide_or]
      congr 2
      apply propext
      omega
  · rw [show hi - lo = 0 by omega]
    have : ¬(lo ≤ k ∧ k < hi) := by omega
    simp [this]

theorem bit_setWords (bits : ℕ → BitVec 64) (lo hi k : ℕ) :
    bit (setWords bits lo hi) k = (decide (lo ≤ k / 64 ∧ k / 64 < hi) || bit bits k) := by
  unfold setWords
  by_cases hle : lo ≤ hi
  · obtain ⟨n, rfl⟩ := Nat.exists_eq_add_of_le hle
    rw [Nat.add_sub_cancel_left]
    clear hle
    induction n with
    | zero => simp
    | succ n ih =>
      rw [range'_concat, foldl_append, foldl_cons, foldl_nil]
      by_cases hk : k / 64 = lo + 1 * n
      · have h1 : k % 64 < 64 := by omega
        have h2 : lo ≤ k / 64 ∧ k / 64 < lo + (n + 1) := by omega
        rw [bit, hk, update_self, BitVec.getLsbD_allOnes, ← hk, decide_eq_true h1,
          decide_eq_true h2, Bool.true_or]
      · rw [bit, update_of_ne hk, ← bit, ih]
        congr 2
        apply propext
        omega
  · rw [show hi - lo = 0 by omega]
    have : ¬(lo ≤ k / 64 ∧ k / 64 < hi) := by omega
    simp [this]

/-- The three loops set the bits of the blocks that lie wholly inside the fragment, and no others.
-/
theorem bit_markBits (bits : ℕ → BitVec 64) {a b : ℕ} (h8 : a % 8 = 0) (hab : a ≤ b) (k : ℕ) :
    bit (markBits bits a b) k = (decide (a / 8 ≤ k ∧ k < (b + 1) / 8) || bit bits k) := by
  unfold markBits
  simp only [bit_setBits, bit_setWords, ← Bool.or_assoc, ← Bool.decide_or]
  congr 2
  apply propext
  split_ifs <;> omega

/-! ## The test for completeness -/

theorem find?_range_eq_some_iff (n k : ℕ) (p : ℕ → Bool) :
    (range n).find? p = some k ↔ k < n ∧ p k = true ∧ ∀ j < k, p j = false := by
  rw [find?_range_eq_some]
  constructor
  · rintro ⟨h1, h2, h3⟩; exact ⟨mem_range.mp h2, h1, fun j hj => by simpa using h3 j hj⟩
  · rintro ⟨h1, h2, h3⟩; exact ⟨h2, mem_range.mpr h1, fun j hj => by simpa using h3 j hj⟩

/-- `ffsll(~w) == off + 1`: bit `off` is the lowest clear bit of `w`. -/
theorem ffsll_not_eq_iff (w : BitVec 64) {off : ℕ} (hoff : off < 64) :
    ffsll (~~~w) = off + 1 ↔ w.getLsbD off = false ∧ ∀ j < off, w.getLsbD j = true := by
  have hfind := find?_range_eq_some_iff 64 off fun k => (~~~w).getLsbD k
  have hiff : ffsll (~~~w) = off + 1 ↔
      (range 64).find? (fun k => (~~~w).getLsbD k) = some off := by
    unfold ffsll
    cases (range 64).find? fun k => (~~~w).getLsbD k <;> simp
  rw [hiff, hfind]
  constructor
  · rintro ⟨_, h1, h2⟩
    refine ⟨by simpa [hoff] using h1, fun j hj => ?_⟩
    have := h2 j hj
    simpa [show j < 64 by omega] using this
  · rintro ⟨h1, h2⟩
    refine ⟨hoff, ?_, fun j hj => ?_⟩
    · rw [BitVec.getLsbD_not, h1, decide_eq_true hoff]; rfl
    · rw [BitVec.getLsbD_not, h2 j hj, Bool.not_true, Bool.and_false]

theorem eq_allOnes_iff (w : BitVec 64) : w = BitVec.allOnes 64 ↔ ∀ j < 64, w.getLsbD j = true := by
  constructor
  · rintro rfl j hj; simp only [BitVec.getLsbD_allOnes, hj, decide_true]
  · intro h
    apply BitVec.eq_of_getLsbD_eq
    intro j hj
    rw [h j hj, BitVec.getLsbD_allOnes, decide_eq_true hj]

/-- `rfc791ctx_complete` asks for a known end, for the bits of all blocks before the last one, and
for a clear bit at the last one. -/
theorem rfc791ctxComplete_iff_bits (ctx : Rfc791ctx) :
    rfc791ctxComplete ctx = true ↔
      ctx.mostRestrictingLast ≠ 65535 ∧ (∀ k < ctx.mostRestrictingLast / 8, bit ctx.bits k = true) ∧
        bit ctx.bits (ctx.mostRestrictingLast / 8) = false := by
  unfold rfc791ctxComplete
  simp only
  set last := ctx.mostRestrictingLast / 8 with hlast
  have hwords : ((range (last / 64)).any fun i => decide (ctx.bits i ≠ BitVec.allOnes 64)) =
      false ↔ ∀ k < last / 64 * 64, bit ctx.bits k = true := by
    simp only [ne_eq, decide_not, any_eq_false, mem_range, Bool.not_eq_true',
      decide_eq_false_iff_not, not_not, eq_allOnes_iff]
    constructor
    · intro h k hk
      exact h (k / 64) (by omega) (k % 64) (by omega)
    · intro h i hi j hj
      have := h (64 * i + j) (by omega)
      rwa [bit, show (64 * i + j) / 64 = i by omega, show (64 * i + j) % 64 = j by omega] at this
  split_ifs with h1 h2
  · simp [h1]
  · have : ¬∀ k < last / 64 * 64, bit ctx.bits k = true := fun h => by
      rw [hwords.mpr h] at h2
      simp at h2
    simp only [false_iff, not_and]
    intro _ h
    exact absurd (fun k hk => h k (by omega)) this
  · rw [Bool.not_eq_true, hwords] at h2
    rw [beq_iff_eq, ffsll_not_eq_iff _ (by omega)]
    constructor
    · rintro ⟨h3, h4⟩
      refine ⟨h1, fun k hk => ?_, h3⟩
      by_cases hk' : k < last / 64 * 64
      · exact h2 k hk'
      · rw [bit, show k / 64 = last / 64 by omega]
        exact h4 _ (by omega)
    · rintro ⟨_, h3, h4⟩
      refine ⟨h4, fun j hj => ?_⟩
      have := h3 (last / 64 * 64 + j) (by omega)
      rwa [bit, show (last / 64 * 64 + j) / 64 = last / 64 by omega,
        show (last / 64 * 64 + j) % 64 = j by omega] at this

/-! ## Whole runs -/

/-- The fragment contains the whole 8-byte block `k`. -/
def Frag.HasBlock (f : Frag) (k : ℕ) : Prop := f.first ≤ 8 * k ∧ 8 * k + 7 ≤ f.last

instance (f : Frag) (k : ℕ) : Decidable (f.HasBlock k) := inferInstanceAs (Decidable (_ ∧ _))

/-- The state of the engine after the accepted fragments `fs`. -/
structure Rfc791Inv (fs : List Frag) (ctx : Rfc791ctx) : Prop where
  last : ctx.mostRestrictingLast = mostRestrictingLast fs
  bits : ∀ k, bit ctx.bits k = true ↔ ∃ f ∈ fs, f.HasBlock k

theorem rfc791ctxInit_inv : Rfc791Inv [] rfc791ctxInit where
  last := rfl
  bits k := by simp [rfc791ctxInit, bit]

theorem rfc791ctxAdd_inv {fs : List Frag} {ctx : Rfc791ctx} (h : Rfc791Inv fs ctx) (pkt : Packet) :
    Rfc791Inv (fs ++ pkt.accept.toList) (rfc791ctxAdd ctx pkt) := by
  unfold rfc791ctxAdd
  cases hacc : pkt.accept with
  | none => simpa using ⟨h.last, h.bits⟩
  | some f =>
    have hlast := mostRestrictingLast_append_singleton fs f
    have hbits : ∀ k, bit (markBits ctx.bits f.first f.last) k = true ↔
        ∃ g ∈ fs ++ [f], g.HasBlock k := by
      intro k
      have := f.aligned
      have hf : f.HasBlock k ↔ f.first / 8 ≤ k ∧ k < (f.last + 1) / 8 := by
        unfold Frag.HasBlock
        omega
      rw [bit_markBits _ f.aligned f.le, Bool.or_eq_true, h.bits, decide_eq_true_iff, ← hf]
      simp only [mem_append, mem_singleton, or_and_right, exists_or, exists_eq_left]
      exact or_comm
    simp only [Option.toList_some]
    rw [h.last]
    split_ifs with hf
    · exact ⟨by rw [hlast, if_pos hf], hbits⟩
    · exact ⟨by rw [hlast, if_neg hf], hbits⟩

/-- `rfc791ctx_add` on a sequence of packets, from `rfc791ctx_init`. -/
def rfc791ctxRun (pkts : List Packet) : Rfc791ctx := pkts.foldl rfc791ctxAdd rfc791ctxInit

theorem rfc791ctxRun_inv (pkts : List Packet) :
    Rfc791Inv (pkts.filterMap Packet.accept) (rfc791ctxRun pkts) :=
  foldl_accept_inv rfc791ctxInit_inv (fun h pkt => rfc791ctxAdd_inv h pkt) pkts

/-- Fragments start at block boundaries, so a block is covered byte by byte only if one fragment
contains all of it. -/
theorem covered_block_iff (fs : List Frag) (k : ℕ) :
    (∃ f ∈ fs, f.HasBlock k) ↔ Covered fs (8 * k + 7) := by
  constructor
  · rintro ⟨f, hf, h1, h2⟩; exact ⟨f, hf, by omega, h2⟩
  · rintro ⟨f, hf, h1, h2⟩
    have := f.aligned
    exact ⟨f, hf, by omega, h2⟩

/-- Completeness of the blocks before the last one is completeness of the datagram: the fragment
that sets the end covers the last block. -/
theorem blocks_covered_iff {fs : List Frag} (h : mostRestrictingLast fs < 65535) :
    (∀ k < mostRestrictingLast fs / 8, ∃ f ∈ fs, f.HasBlock k) ↔
      ∀ i ≤ mostRestrictingLast fs, Covered fs i := by
  constructor
  · intro hb i hi
    by_cases hlast : mostRestrictingLast fs / 8 ≤ i / 8
    · exact covered_of_block_end h hi hlast
    · obtain ⟨f, hf, h1, h2⟩ := hb (i / 8) (by omega)
      exact ⟨f, hf, by omega, by omega⟩
  · intro hc k hk
    rw [covered_block_iff]
    exact hc _ (by omega)

/-- `rfc791ctx_complete` tests that every block before the last one is marked and that the last one
is not. -/
theorem rfc791ctxComplete_iff {fs : List Frag} {ctx : Rfc791ctx} (h : Rfc791Inv fs ctx) :
    rfc791ctxComplete ctx = true ↔
      mostRestrictingLast fs < 65535 ∧ (∀ i ≤ mostRestrictingLast fs, Covered fs i) ∧
        ∀ f ∈ fs, ¬f.HasBlock (mostRestrictingLast fs / 8) := by
  have hle := mostRestrictingLast_le fs
  rw [rfc791ctxComplete_iff_bits, h.last, ← Bool.not_eq_true, h.bits]
  simp only [h.bits, not_exists, not_and]
  constructor
  · rintro ⟨h1, h2, h3⟩
    exact ⟨by omega, (blocks_covered_iff (by omega)).mp h2, h3⟩
  · rintro ⟨h1, h2, h3⟩
    exact ⟨by omega, (blocks_covered_iff h1).mpr h2, h3⟩

/-- The datagram has a known end before byte 65535 and all of its bytes have arrived: what
`rfc791ctx_complete` is meant to report. -/
def DatagramComplete (fs : List Frag) : Prop :=
  (∃ f ∈ fs, f.more = false ∧ f.last < 65535) ∧ ∀ i ≤ mostRestrictingLast fs, Covered fs i

theorem exists_last_iff (fs : List Frag) :
    (∃ f ∈ fs, f.more = false ∧ f.last < 65535) ↔ mostRestrictingLast fs < 65535 := by
  constructor
  · rintro ⟨f, hf, h1, h2⟩
    exact lt_of_le_of_lt (mostRestrictingLast_le_last hf h1) h2
  · intro h
    obtain ⟨f, hf, h1, h2⟩ := exists_last_of_lt h
    exact ⟨f, hf, h1, by omega⟩

/-- For every sequence of packets, `rfc791ctx_complete` tells whether the datagram is complete
exactly when it is not complete or no accepted fragment contains the whole 8-byte block in which the
datagram ends. -/
theorem rfc791ctx_complete_right_iff (pkts : List Packet) : let fs := pkts.filterMap Packet.accept
    (rfc791ctxComplete (rfc791ctxRun pkts) = true ↔ DatagramComplete fs) ↔
      (DatagramComplete fs → ∀ f ∈ fs, ¬f.HasBlock (mostRestrictingLast fs / 8)) := by
  intro fs
  rw [rfc791ctxComplete_iff (rfc791ctxRun_inv pkts), DatagramComplete, exists_last_iff]
  tauto

/-- A frame of 42 bytes with a 20-byte IPv4 header, 8 bytes of payload at offset 0 and no fragment
bits. -/
def oneBlockPacket : Packet where
  direction := .uplink
  sz := 42
  data := fun i => if i = 14 then 0x45 else if i = 17 then 28 else 0

/-- A datagram of one whole block, complete with its only fragment, is reported as incomplete. -/
theorem rfc791ctx_complete_misses_full_block :
    ¬(rfc791ctxComplete (rfc791ctxRun [oneBlockPacket]) = true ↔
      DatagramComplete ([oneBlockPacket].filterMap Packet.accept)) := by
  have hacc : [oneBlockPacket].filterMap Packet.accept =
      [⟨0, 7, false, by decide, by decide, by decide⟩] := by decide
  have hincomplete : rfc791ctxComplete (rfc791ctxRun [oneBlockPacket]) = false := by decide
  rw [hacc, hincomplete]
  have hcomplete : DatagramComplete [⟨0, 7, false, by decide, by decide, by decide⟩] := by
    refine ⟨by decide, fun i hi => ⟨_, mem_singleton.mpr rfl, Nat.zero_le _, ?_⟩⟩
    simpa [mostRestrictingLast] using hi
  simp [hcomplete]

end Pptk.Ipfrag
