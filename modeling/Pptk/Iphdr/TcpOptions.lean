import Pptk.Lib.Loop
import Pptk.Iphdr.Hdr

/-!
# Search for TCP options

Model of `tcp_find_sack_ts_headers` (iphdr/iphdr.c:134-199), which walks over the options
of a TCP header and reports the place of a SACK and of a timestamp option. Offsets count
from the start of the header at `pkt`.

Main results: `findSackTsBody_progress` and `findSackTs_iff`.
-/

namespace Pptk.Iphdr

open Pptk.Lib List

/-- `struct sack_ts_headers` (iphdr.h:1497-1501). -/
structure SackTsHeaders where
  sackoff : ℕ
  sacklen : ℕ
  tsoff : ℕ
deriving DecidableEq, Repr

/-- `tcp_data_offset` (iphdr.h:1491-1495). -/
def tcpDataOffset (m : Mem) (pkt : ℕ) : ℕ := ((m (pkt + 12)).toNat >>> 4) * 4

/-- The variables of `tcp_find_sack_ts_headers`, and the offsets of the option bytes that have been
read so far. -/
structure FindSackTs where
  curoff : ℕ
  hdrs : SackTsHeaders
  reads : List ℕ

section Model

variable (m : Mem) (pkt dataoff : ℕ)

/-- `sacklenval` and `tslenval`: the length byte, if there is one and it is less than the rest of
the header. -/
def optLenval (curoff : ℕ) : ℕ :=
  if curoff + 1 < dataoff ∧ (m (pkt + (curoff + 1))).toNat < dataoff - curoff then
    (m (pkt + (curoff + 1))).toNat
  else dataoff - curoff

/-- The offset of the length byte, if it is read. -/
def optLenRead (curoff : ℕ) : List ℕ := if curoff + 1 < dataoff then [curoff + 1] else []

/-- The body of the loop (iphdr.c:144-196). -/
def findSackTsBody (s : FindSackTs) : FindSackTs ⊕ FindSackTs :=
  if ¬s.curoff < dataoff then .inr s
  else
    let kind := m (pkt + s.curoff)
    let s := { s with reads := s.reads ++ [s.curoff] }
    if kind = 0 then .inr s
    else if kind = 1 then .inl { s with curoff := s.curoff + 1 }
    else
      let lenval := optLenval m pkt dataoff s.curoff
      let s := { s with reads := s.reads ++ optLenRead dataoff s.curoff }
      if kind = 5 then
        .inl { s with
          hdrs.sacklen := lenval, hdrs.sackoff := s.curoff, curoff := s.curoff + lenval }
      else if kind = 8 then
        if lenval ≠ 10 then .inl { s with curoff := s.curoff + lenval }
        else .inl { s with hdrs.tsoff := s.curoff, curoff := s.curoff + lenval }
      else if s.curoff + 1 ≥ dataoff then .inr s
      else if lenval < 2 then .inr s
      else .inl { s with curoff := s.curoff + lenval }

end Model

/-- The variables before the loop. -/
def findSackTsInit : FindSackTs := ⟨20, ⟨0, 0, 0⟩, []⟩

/-- `tcp_find_sack_ts_headers` returns with the variables `r`. -/
def TcpFindSackTsHeaders (m : Mem) (pkt : ℕ) (r : FindSackTs) : Prop :=
  Returns (findSackTsBody m pkt (tcpDataOffset m pkt)) findSackTsInit r

/-! ## Where options start -/

/-- The offsets at which the walk over the options of a header finds an option: the first one is at
20, a NOP has one byte, and any other one but the end of the list has the length of its second byte.
Of options with length 1 only SACK and timestamps are passed over. -/
inductive OptionAt (m : Mem) (pkt dataoff : ℕ) : ℕ → Prop
  | first : OptionAt m pkt dataoff 20
  | nop {p : ℕ} : OptionAt m pkt dataoff p → p < dataoff → m (pkt + p) = 1 →
      OptionAt m pkt dataoff (p + 1)
  | next {p : ℕ} : OptionAt m pkt dataoff p → p + 1 < dataoff → m (pkt + p) ≠ 0 →
      m (pkt + p) ≠ 1 → 0 < (m (pkt + (p + 1))).toNat →
      ((m (pkt + (p + 1))).toNat = 1 → m (pkt + p) = 5 ∨ m (pkt + p) = 8) →
      p + (m (pkt + (p + 1))).toNat < dataoff →
      OptionAt m pkt dataoff (p + (m (pkt + (p + 1))).toNat)

/-- A SACK or timestamp option with length 0. -/
def EmptyOption (m : Mem) (pkt dataoff p : ℕ) : Prop :=
  p + 1 < dataoff ∧ (m (pkt + p) = 5 ∨ m (pkt + p) = 8) ∧ m (pkt + (p + 1)) = 0

/-- What is reported is inside the header, and so is what has been read. -/
structure FindSackTs.Inside (dataoff : ℕ) (s : FindSackTs) : Prop where
  sack : s.hdrs.sackoff ≠ 0 → 20 ≤ s.hdrs.sackoff ∧ s.hdrs.sackoff + s.hdrs.sacklen ≤ dataoff
  ts : s.hdrs.tsoff ≠ 0 → 20 ≤ s.hdrs.tsoff ∧ s.hdrs.tsoff + 10 ≤ dataoff
  reads : ∀ i ∈ s.reads, i < dataoff

section Walk

variable {m : Mem} {pkt dataoff : ℕ} {s s' r : FindSackTs}

theorem optLenval_le {p : ℕ} (h : p < dataoff) : p + optLenval m pkt dataoff p ≤ dataoff := by
  unfold optLenval
  split_ifs <;> omega

theorem mem_optLenRead {p i : ℕ} (h : i ∈ optLenRead dataoff p) : i < dataoff := by
  unfold optLenRead at h
  split_ifs at h with hp
  · rw [mem_singleton.mp h]
    exact hp
  · simp at h

theorem findSackTsBody_inl (h : findSackTsBody m pkt dataoff s = .inl s') :
    s.curoff < dataoff ∧ m (pkt + s.curoff) ≠ 0 ∧
      ((m (pkt + s.curoff) = 1 ∧ s'.curoff = s.curoff + 1) ∨
        (m (pkt + s.curoff) ≠ 1 ∧ s'.curoff = s.curoff + optLenval m pkt dataoff s.curoff ∧
          (m (pkt + s.curoff) ≠ 5 → m (pkt + s.curoff) ≠ 8 →
            s.curoff + 1 < dataoff ∧ 2 ≤ optLenval m pkt dataoff s.curoff))) := by
  unfold findSackTsBody at h
  by_cases hlt : s.curoff < dataoff
  · rw [if_neg (not_not.mpr hlt)] at h
    simp only at h
    refine ⟨hlt, ?_⟩
    split_ifs at h with h0 h1 h5 h8 h10 hend h2
    all_goals
      obtain rfl := Sum.inl.inj h
      simp_all
    omega
  · rw [if_pos hlt] at h
    exact absurd h (by simp)

theorem FindSackTs.Inside.step (hs : s.Inside dataoff) (h20 : 20 ≤ s.curoff)
    (h : findSackTsBody m pkt dataoff s = .inl s') : s'.Inside dataoff := by
  obtain ⟨hlt, -⟩ := findSackTsBody_inl h
  have hle : s.curoff + optLenval m pkt dataoff s.curoff ≤ dataoff := optLenval_le hlt
  have hread : ∀ i ∈ s.reads ++ [s.curoff] ++ optLenRead dataoff s.curoff, i < dataoff := by
    intro i hi
    simp only [mem_append, mem_singleton] at hi
    rcases hi with (hi | rfl) | hi
    · exact hs.reads i hi
    · exact hlt
    · exact mem_optLenRead hi
  unfold findSackTsBody at h
  rw [if_neg (not_not.mpr hlt)] at h
  simp only at h
  split_ifs at h with h0 h1 h5 h8 h10 hend h2
  all_goals obtain rfl := Sum.inl.inj h
  · exact ⟨hs.sack, hs.ts, fun i hi => hread i (mem_append_left _ hi)⟩
  · exact ⟨fun _ => ⟨h20, hle⟩, hs.ts, hread⟩
  · exact ⟨hs.sack, hs.ts, hread⟩
  · exact ⟨hs.sack, fun _ => ⟨h20, by simpa [not_not.mp h10] using hle⟩, hread⟩
  · exact ⟨hs.sack, hs.ts, hread⟩

theorem FindSackTs.Inside.return (hs : s.Inside dataoff)
    (h : findSackTsBody m pkt dataoff s = .inr r) : r.Inside dataoff := by
  unfold findSackTsBody at h
  by_cases hlt : s.curoff < dataoff
  · have hread : ∀ i ∈ s.reads ++ [s.curoff], i < dataoff := by
      intro i hi
      rcases mem_append.mp hi with hi | hi
      · exact hs.reads i hi
      · rwa [mem_singleton.mp hi]
    have hread' : ∀ i ∈ s.reads ++ [s.curoff] ++ optLenRead dataoff s.curoff, i < dataoff := by
      intro i hi
      rcases mem_append.mp hi with hi | hi
      · exact hread i hi
      · exact mem_optLenRead hi
    rw [if_neg (not_not.mpr hlt)] at h
    simp only at h
    split_ifs at h with h0 h1 h5 h8 h10 hend h2
    all_goals obtain rfl := Sum.inr.inj h
    · exact ⟨hs.sack, hs.ts, hread⟩
    · exact ⟨hs.sack, hs.ts, hread'⟩
    · exact ⟨hs.sack, hs.ts, hread'⟩
  · rw [if_pos hlt] at h
    exact Sum.inr.inj h ▸ hs

/-- The walk visits every place at which an option starts. -/
theorem exists_steps_of_optionAt {p : ℕ} (h : OptionAt m pkt dataoff p) :
    ∃ s, Steps (findSackTsBody m pkt dataoff) findSackTsInit s ∧ s.curoff = p := by
  induction h with
  | first => exact ⟨findSackTsInit, .refl, rfl⟩
  | @nop p _ hlt hkind ih =>
    obtain ⟨s, hsteps, rfl⟩ := ih
    refine ⟨_, hsteps.tail (c := { s with curoff := s.curoff + 1, reads := s.reads ++ [s.curoff] })
      ?_, rfl⟩
    simp [findSackTsBody, hlt, hkind]
  | @next p _ hlt h0 h1 hpos hone hin ih =>
    obtain ⟨s, hsteps, rfl⟩ := ih
    have hlen : optLenval m pkt dataoff s.curoff = (m (pkt + (s.curoff + 1))).toNat := by
      rw [optLenval, if_pos ⟨hlt, by omega⟩]
    suffices h : ∃ s', findSackTsBody m pkt dataoff s = .inl s' ∧
        s'.curoff = s.curoff + (m (pkt + (s.curoff + 1))).toNat by
      obtain ⟨s', hb, hs'⟩ := h
      exact ⟨s', hsteps.tail hb, hs'⟩
    unfold findSackTsBody
    rw [if_neg (not_not.mpr (show s.curoff < dataoff by omega))]
    simp only [if_neg h0, if_neg h1, hlen]
    split_ifs with h5 h8 h10 hend h2
    · exact ⟨_, rfl, rfl⟩
    · exact ⟨_, rfl, rfl⟩
    · exact ⟨_, rfl, rfl⟩
    · omega
    · rcases hone (by omega) with h | h <;> contradiction
    · exact ⟨_, rfl, rfl⟩

/-- The walk is between options, or at the end of the header. -/
def FindSackTs.AtOption (m : Mem) (pkt dataoff : ℕ) (s : FindSackTs) : Prop :=
  20 ≤ s.curoff ∧ (s.curoff < dataoff → OptionAt m pkt dataoff s.curoff)

/-- One iteration gets forward, unless the option is an empty one. -/
theorem findSackTsBody_progress (hs : s.AtOption m pkt dataoff)
    (hne : ¬EmptyOption m pkt dataoff s.curoff) (h : findSackTsBody m pkt dataoff s = .inl s') :
    s.curoff < s'.curoff ∧ s'.AtOption m pkt dataoff := by
  obtain ⟨hlt, h0, hcase⟩ := findSackTsBody_inl h
  have hat := hs.2 hlt
  rcases hcase with ⟨hkind, hcur⟩ | ⟨h1, hcur, hother⟩
  · exact ⟨by omega, by have := hs.1; omega, fun _ => hcur ▸ hat.nop hlt hkind⟩
  · have h20 := hs.1
    by_cases hin : s.curoff + 1 < dataoff ∧ (m (pkt + (s.curoff + 1))).toNat < dataoff - s.curoff
    · have hlen : optLenval m pkt dataoff s.curoff = (m (pkt + (s.curoff + 1))).toNat := if_pos hin
      rw [hlen] at hcur hother
      have hpos : 0 < (m (pkt + (s.curoff + 1))).toNat := by
        by_contra hzero
        have hbyte : m (pkt + (s.curoff + 1)) = 0 := UInt8.toNat_inj.mp (by simp; omega)
        by_cases h5 : m (pkt + s.curoff) = 5
        · exact hne ⟨hin.1, .inl h5, hbyte⟩
        · by_cases h8 : m (pkt + s.curoff) = 8
          · exact hne ⟨hin.1, .inr h8, hbyte⟩
          · have := (hother h5 h8).2
            omega
      refine ⟨by omega, by omega, fun _ => hcur ▸ hat.next hin.1 h0 h1 hpos ?_ (by omega)⟩
      intro hone
      by_contra hk
      obtain ⟨h5, h8⟩ := not_or.mp hk
      have := (hother h5 h8).2
      omega
    · have hlen : optLenval m pkt dataoff s.curoff = dataoff - s.curoff := if_neg hin
      exact ⟨by omega, by omega, fun hlt' => by omega⟩

theorem findSackTsBody_stuck (h : EmptyOption m pkt dataoff s.curoff) :
    ∃ s', findSackTsBody m pkt dataoff s = .inl s' ∧ s'.curoff = s.curoff := by
  obtain ⟨hlt, hkind, hbyte⟩ := h
  have hlen : optLenval m pkt dataoff s.curoff = 0 := by
    rw [optLenval, if_pos ⟨hlt, by rw [hbyte]; simp; omega⟩, hbyte]
    rfl
  unfold findSackTsBody
  rw [if_neg (not_not.mpr (show s.curoff < dataoff by omega))]
  rcases hkind with hkind | hkind <;> simp [hkind, hlen]

end Walk

/-- `tcp_find_sack_ts_headers` returns, reports options inside the header only and reads no option
byte behind the header, exactly if the walk meets no SACK or timestamp option with the length 0. -/
theorem findSackTs_iff (m : Mem) (pkt : ℕ) :
    (∃ r, TcpFindSackTsHeaders m pkt r ∧ r.Inside (tcpDataOffset m pkt)) ↔
      ∀ p, OptionAt m pkt (tcpDataOffset m pkt) p → ¬EmptyOption m pkt (tcpDataOffset m pkt) p := by
  constructor
  · rintro ⟨r, hr, -⟩ p hat hempty
    obtain ⟨s, hsteps, rfl⟩ := exists_steps_of_optionAt hat
    refine not_returns (P := fun s' => s'.curoff = s.curoff) (fun s' hs' => ?_) hsteps rfl hr
    obtain ⟨s'', hb, hcur⟩ := findSackTsBody_stuck (s := s') (hs' ▸ hempty)
    exact ⟨s'', hb, hcur.trans hs'⟩
  · intro hne
    refine exists_returns
      (P := fun s => s.AtOption m pkt (tcpDataOffset m pkt) ∧ s.Inside (tcpDataOffset m pkt))
      (fun s => tcpDataOffset m pkt - s.curoff) ?_ ?_ ?_
    · rintro s s' ⟨hat, hin⟩ hb
      have hlt := (findSackTsBody_inl hb).1
      obtain ⟨hprog, hat'⟩ := findSackTsBody_progress hat (hne _ (hat.2 hlt)) hb
      exact ⟨⟨hat', hin.step hat.1 hb⟩, by omega⟩
    · rintro s r ⟨-, hin⟩ hb
      exact hin.return hb
    · refine ⟨⟨le_rfl, fun _ => .first⟩, ?_⟩
      exact ⟨fun h => absurd rfl h, fun h => absurd rfl h, fun _ h => by simp [findSackTsInit] at h⟩

/-- A header with a SACK option of length 0 behind its first 20 bytes. -/
def emptySackHdr : Mem := fun i => if i = 12 then 0x60 else if i = 20 then 5 else 0

/-- On this header the search does not end. -/
theorem findSackTs_hangs : ¬∃ r, TcpFindSackTsHeaders emptySackHdr 0 r := by
  rintro ⟨r, hr⟩
  refine not_returns (P := fun s => s.curoff = 20) (fun s hs => ?_) .refl rfl hr
  have hempty : EmptyOption emptySackHdr 0 (tcpDataOffset emptySackHdr 0) s.curoff := by
    rw [hs]
    unfold EmptyOption
    decide
  obtain ⟨s', hb, hcur⟩ := findSackTsBody_stuck hempty
  exact ⟨s', hb, hcur.trans hs⟩

end Pptk.Iphdr
