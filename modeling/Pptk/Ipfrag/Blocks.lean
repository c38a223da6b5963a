import Pptk.Ipfrag.Packet

/-!
# Whole blocks

Two of the engines keep their hole descriptors inside the packet buffer, one
8-byte descriptor at the start of each hole. They can only take in whole 8-byte
blocks, so they round the end of a fragment down unless the fragment sets the end
of the datagram. Nothing is lost by this: a fragment starts at a block boundary,
so a block has arrived as soon as its last byte has.

Main results: `BlockMissing` and `forall_covered_iff`.
-/

namespace Pptk.Ipfrag

open Pptk.Lib

/-- The last byte of the datagram that lies in the block of byte `i`. -/
def blockEnd (last i : ℕ) : ℕ := min (i / 8 * 8 + 7) last

/-- Byte `i` lies in a block of the datagram that has not arrived as a whole. -/
def BlockMissing (fs : List Frag) (i : ℕ) : Prop :=
  i ≤ mostRestrictingLast fs ∧ ¬Covered fs (blockEnd (mostRestrictingLast fs) i)

/-- `(data_last + 1) / 8 * 8 - 1`: the end of the last whole block of a fragment (rfc815.c:187,
iprb815.c:1651). -/
def roundLast (dataLast : ℕ) : ℕ := (dataLast + 1) / 8 * 8 - 1

/-- Nothing is missing exactly when no block is. -/
theorem forall_covered_iff (fs : List Frag) :
    (∀ i ≤ mostRestrictingLast fs, Covered fs i) ↔ ∀ i, ¬BlockMissing fs i := by
  constructor
  · intro h i hi
    exact hi.2 (h _ (min_le_right _ _))
  · intro h i hi
    have hend : Covered fs (blockEnd (mostRestrictingLast fs) i) := by
      by_contra hc
      exact h i ⟨hi, hc⟩
    -- the fragment with the last byte of the block starts at or before the block
    obtain ⟨f, hf, h1, h2⟩ := hend
    have := f.aligned
    rw [blockEnd] at h1 h2
    exact ⟨f, hf, by omega, by omega⟩

theorem BlockMissing.block_le {fs : List Frag} {i : ℕ} (h : BlockMissing fs i) :
    i / 8 * 8 + 7 ≤ mostRestrictingLast fs := by
  by_contra hlt
  obtain ⟨hi, hc⟩ := h
  have hle := mostRestrictingLast_le fs
  refine hc (covered_of_block_end (by omega) (min_le_right _ _) ?_)
  rw [blockEnd]
  omega

theorem BlockMissing.block {fs : List Frag} {i j : ℕ} (h : BlockMissing fs i)
    (hij : j / 8 = i / 8) : BlockMissing fs j := by
  have hle := h.block_le
  refine ⟨by omega, ?_⟩
  rw [blockEnd, hij]
  exact h.2

section

variable {fs : List Frag} {f : Frag}

/-- A last fragment takes away the blocks behind its end. -/
theorem blockMissing_append_lower (hf : f.more = false ∧ mostRestrictingLast fs > f.last) (i : ℕ) :
    BlockMissing (fs ++ [f]) i ↔
      (BlockMissing fs i ∧ i ≤ f.last) ∧ ¬(f.first ≤ i ∧ i ≤ f.last) := by
  have hlast : mostRestrictingLast (fs ++ [f]) = f.last := by
    rw [mostRestrictingLast_append_singleton, if_pos hf]
  have := f.aligned
  have := f.le
  simp only [BlockMissing, hlast, covered_append, covered_singleton, not_or, Frag.Has]
  -- in front of the fragment the blocks end where they did before
  have hend : i < f.first →
      blockEnd f.last i = blockEnd (mostRestrictingLast fs) i ∧ blockEnd f.last i < f.first := by
    intro h
    simp only [blockEnd]
    omega
  have hin : f.first ≤ i → i ≤ f.last → f.first ≤ blockEnd f.last i ∧
    blockEnd f.last i ≤ f.last := by
    intro h h'
    simp only [blockEnd]
    omega
  constructor
  · rintro ⟨hi, hc, hn⟩
    have hlt : i < f.first := by
      by_contra hge
      exact hn (hin (by omega) hi)
    rw [(hend hlt).1] at hc
    exact ⟨⟨⟨by omega, hc⟩, hi⟩, by omega⟩
  · rintro ⟨⟨⟨-, hc⟩, hi⟩, hn⟩
    have hlt : i < f.first := by omega
    refine ⟨hi, by rwa [(hend hlt).1], ?_⟩
    have := (hend hlt).2
    omega

/-- A fragment takes away the blocks that it covers. -/
theorem blockMissing_append_round (hf : ¬(f.more = false ∧ mostRestrictingLast fs > f.last))
    (i : ℕ) :
    BlockMissing (fs ++ [f]) i ↔ BlockMissing fs i ∧ ¬(f.first ≤ i ∧ i < (f.last + 1) / 8 * 8) := by
  have hlast : mostRestrictingLast (fs ++ [f]) = mostRestrictingLast fs := by
    rw [mostRestrictingLast_append_singleton, if_neg hf]
  have := f.aligned
  have := f.le
  simp only [BlockMissing, hlast, covered_append, covered_singleton, not_or, Frag.Has]
  constructor
  · rintro ⟨hi, hc, hn⟩
    refine ⟨⟨hi, hc⟩, fun h => hn ?_⟩
    simp only [blockEnd]
    omega
  · rintro ⟨⟨hi, hc⟩, hn⟩
    refine ⟨hi, hc, fun h => hn ?_⟩
    have hle := BlockMissing.block_le ⟨hi, hc⟩
    simp only [blockEnd] at h
    omega

end

end Pptk.Ipfrag
