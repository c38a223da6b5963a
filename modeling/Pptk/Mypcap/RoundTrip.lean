import Mathlib.Data.Finset.Dedup
import Mathlib.Data.List.TakeWhile
import Pptk.Mypcap.WellFormed
import Pptk.Mypcap.Writer

/-!
# pcapng files: what is written is read

Packets that are written and then read.

Main results: `interp_callsBlocks_iff` and `write_read_iff`.
-/

namespace Pptk.Mypcap

open Iphdr Lib List

/-! ## Slots of the array of interfaces -/

/-- The time-stamp offset that is in the memory of the `j`-th interface, in the array in which it is
added: the arrays have capacities 1, 3, 7, … -/
def slotOffset (fresh : ℕ → ℕ → InInterface) (j : ℕ) :
    UInt64 := (fresh (Nat.log2 (j + 1)) j).tsoffset

/-- The interfaces are those with the given names, with what was in the memory as their time-stamp
offsets. -/
structure Slots (fresh : ℕ → ℕ → InInterface) (names : List (List UInt8)) (a : InInterfaces) :
  Prop where
  size : a.size = names.length
  name : ∀ i < names.length, (a.ar i).name = names[i]?
  tsresol : ∀ i < names.length, (a.ar i).tsresol = 6
  tsoffset : ∀ i < names.length, (a.ar i).tsoffset = slotOffset fresh i
  capacity : a.capacity + 1 = 2 ^ a.allocs
  le : a.size ≤ a.capacity
  free : ∀ i, a.size ≤ i → i < a.capacity → (a.ar i).tsoffset = slotOffset fresh i

section Slots

variable {fresh : ℕ → ℕ → InInterface} {names : List (List UInt8)} {a : InInterfaces}

theorem Slots.init {ar : ℕ → InInterface} {frees : ℕ} : Slots fresh [] ⟨ar, 0, 0, 0, frees⟩ := by
  refine ⟨rfl, by simp, by simp, by simp, rfl, Nat.le_refl 0, ?_⟩
  intro i _ hi
  exact absurd hi (Nat.not_lt_zero i)

theorem Slots.pushBack (h : Slots fresh names a) :
    (a.pushBack fresh).capacity + 1 = 2 ^ (a.pushBack fresh).allocs ∧
      a.size < (a.pushBack fresh).capacity ∧
      ∀ i, a.size ≤ i → i < (a.pushBack fresh).capacity →
      ((a.pushBack fresh).ar i).tsoffset = slotOffset fresh i := by
  have hcapacity := h.capacity
  have hle := h.le
  unfold InInterfaces.pushBack
  by_cases hroom : a.size + 1 ≤ a.capacity
  · rw [if_pos hroom]
    exact ⟨hcapacity, hroom, h.free⟩
  · have hdouble : (if a.size + 1 < a.capacity * 2 + 1 then a.capacity * 2 + 1 else a.size + 1) =
      a.capacity * 2 + 1 := by
      split_ifs <;> omega
    rw [if_neg hroom, hdouble]
    dsimp only
    refine ⟨by rw [pow_succ]; omega, by omega, ?_⟩
    intro i hi hlt
    have hlog : Nat.log2 (i + 1) = a.allocs := by
      rw [Nat.log2_eq_iff (by omega), pow_succ]
      omega
    rw [if_neg (by omega), slotOffset, hlog]

/-- An interface without a time-stamp offset keeps the one that is in the memory. -/
theorem Slots.add {name : List UInt8} {snaplen linktype : ℕ} (h : Slots fresh names a) :
    Slots fresh (names ++ [name]) ((a.pushBack fresh).setLast
      ⟨some name, snaplen, linktype, 6, ((a.pushBack fresh).ar a.size).tsoffset⟩) := by
  obtain ⟨hcapacity, hroom, hfree⟩ := h.pushBack
  have hlength : (names ++ [name]).length = a.size + 1 := by
    rw [length_append, length_singleton, h.size]
  have hcases : ∀ i < (names ++ [name]).length, i < names.length ∨ i = a.size := by
    intro i hi
    have := h.size
    omega
  refine ⟨?_, ?_, ?_, ?_, hcapacity, ?_, ?_⟩
  · rw [size_setLast, size_pushBack, hlength]
  · intro i hi
    rcases hcases i hi with hold | rfl
    · rw [ar_setLast_pushBack (by rw [h.size]; exact hold), h.name i hold,
        getElem?_append_left hold]
    · rw [ar_setLast_pushBack_self, h.size, getElem?_concat_length]
  · intro i hi
    rcases hcases i hi with hold | rfl
    · rw [ar_setLast_pushBack (by rw [h.size]; exact hold), h.tsresol i hold]
    · rw [ar_setLast_pushBack_self]
  · intro i hi
    rcases hcases i hi with hold | rfl
    · rw [ar_setLast_pushBack (by rw [h.size]; exact hold), h.tsoffset i hold]
    · rw [ar_setLast_pushBack_self]
      exact hfree a.size (Nat.le_refl _) hroom
  · rw [size_setLast, size_pushBack]
    exact hroom
  · intro i hi hlt
    rw [size_setLast, size_pushBack] at hi
    have hother : ((a.pushBack fresh).setLast
        ⟨some name, snaplen, linktype, 6, ((a.pushBack fresh).ar a.size).tsoffset⟩).ar i =
          (a.pushBack fresh).ar i := by
      rw [InInterfaces.setLast, size_pushBack]
      exact Function.update_of_ne (by omega) ..
    rw [hother]
    exact hfree i (by omega) hlt

end Slots

/-! ## What the calls return -/

/-- What reading is to return for a packet. -/
def WriteCall.expected (c : WriteCall) : ReadRet :=
  .packet ⟨c.buf, c.buf.length, c.buf.length, c.time64, some c.ifname⟩

section Calls

variable {e : Endian} {fresh : ℕ → ℕ → InInterface} {binaryTime : UInt64 → ℕ → UInt64}
  {st : InState}
  {names : List (List UInt8)} {c : WriteCall}

theorem blockStep_outShb :
    blockStep e fresh binaryTime false st outShb = .next { st with
      interfaces := st.interfaces.freeInterfaces } := by
  rw [outShb, blockStep, if_neg (by simp)]

variable {name : List UInt8} {calls : List WriteCall}

theorem applyOpt_name {intf : InInterface} {pad : List UInt8} (hnone : intf.name = none)
    (hname : name ≠ []) :
    applyOpt e intf ⟨2, name, pad⟩ = .ok { intf with name := some (name.takeWhile (· ≠ 0)) } := by
  simp [applyOpt, hnone, hname]

theorem blockStep_idbOf (hpos : 0 < name.length) (hne : ∀ b ∈ name, b ≠ 0) :
    blockStep e fresh binaryTime false st (idbOf name) = .next ⟨st.lasttime,
      (st.interfaces.pushBack fresh).setLast
        ⟨some name, 0xFFFFFFFF, 1, 6,
          ((st.interfaces.pushBack fresh).ar st.interfaces.size).tsoffset⟩, st.buf⟩ := by
  have hname : name.takeWhile (· ≠ 0) = name := takeWhile_eq_self_iff.mpr (by simpa using hne)
  have hempty : name ≠ [] := length_pos_iff.mp hpos
  have hopts : ∀ snaplen linktype t, foldlM (applyOpt e) ⟨none, snaplen, linktype, 6, t⟩
      [⟨2, name, zeroPad name.length⟩, ⟨0, [], []⟩] = .ok ⟨some name, snaplen, linktype, 6, t⟩ := by
    intro snaplen linktype t
    rw [foldlM_cons, applyOpt_name rfl hempty, ok_bind, hname]
    rfl
  rw [idbOf, blockStep]
  dsimp only
  rw [size_pushBack, Nat.add_sub_cancel, hopts]

theorem blockStep_epbOf {index : ℕ} (hc : c.Ok) (h : Slots fresh names st.interfaces)
    (hindex : index < names.length) :
    ∃ st', blockStep e fresh binaryTime false st (epbOf c index) =
      .packet ⟨c.buf, c.buf.length, c.buf.length, c.time64 + slotOffset fresh index,
        names[index]?⟩ st' ∧
      st'.interfaces = st.interfaces := by
  have hempty : c.buf ≠ [] := length_pos_iff.mp hc.buf_pos
  have htime : c.time64.toNat / 2 ^ 32 * 2 ^ 32 + c.time64.toNat % 2 ^ 32 = c.time64.toNat := by
    omega
  have hval : (st.interfaces.ar index).time64val binaryTime c.time64 = c.time64 +
    slotOffset fresh index := by
    rw [InInterface.time64val, h.tsresol index hindex, h.tsoffset index hindex]
    rfl
  rw [epbOf, blockStep, if_neg (by simp [hempty, h.size, hindex]), htime, UInt64.ofNat_toNat, hval,
    h.name index hindex]
  exact ⟨_, rfl, rfl⟩

theorem mem_addName : name ∈ addName names name := by
  unfold addName
  split_ifs with h
  · exact h
  · exact mem_append_right _ (mem_singleton_self name)

theorem nodup_addName (h : names.Nodup) : (addName names name).Nodup := by
  unfold addName
  split_ifs with hmem
  · exact h
  · rw [nodup_append_comm]
    exact nodup_cons.mpr ⟨hmem, h⟩

theorem interp_callBlocks {bs : List Block} (hc : c.Ok) (h : Slots fresh names st.interfaces) :
    ∃ st', Slots fresh (addName names c.ifname) st'.interfaces ∧
      interp e fresh binaryTime false st (callBlocks names c ++ bs) =
        .packet ⟨c.buf, c.buf.length, c.buf.length,
          c.time64 + slotOffset fresh ((addName names c.ifname).idxOf c.ifname % 2 ^ 32),
          (addName names c.ifname)[(addName names c.ifname).idxOf c.ifname % 2 ^ 32]?⟩ ::
          interp e fresh binaryTime false st' bs := by
  have hlt : (addName names c.ifname).idxOf c.ifname < (addName names c.ifname).length :=
    idxOf_lt_length_iff.mpr mem_addName
  have hindex := Nat.lt_of_le_of_lt (Nat.mod_le _ (2 ^ 32)) hlt
  by_cases hmem : c.ifname ∈ names
  · have hnames : addName names c.ifname = names := if_pos hmem
    rw [hnames] at hindex ⊢
    obtain ⟨st', hstep, hst'⟩ := blockStep_epbOf hc h hindex
    refine ⟨st', by rw [hst']; exact h, ?_⟩
    rw [callBlocks, if_pos hmem, singleton_append, interp, hstep]
    rfl
  · have hnames : addName names c.ifname = names ++ [c.ifname] := if_neg hmem
    have hidx : (names ++ [c.ifname]).idxOf c.ifname = names.length := by
      rw [idxOf_append_of_notMem hmem, idxOf_cons_self, Nat.add_zero]
    rw [hnames] at hindex ⊢
    rw [hidx] at hindex ⊢
    obtain ⟨st1, hidb, hslots⟩ : ∃ st1, blockStep e fresh binaryTime false st (idbOf c.ifname) =
      .next st1 ∧
        Slots fresh (names ++ [c.ifname]) st1.interfaces :=
          ⟨_, blockStep_idbOf hc.ifname_pos hc.ifname_ne, h.add⟩
    obtain ⟨st', hstep, hst'⟩ := blockStep_epbOf hc hslots hindex
    refine ⟨st', by rw [hst']; exact hslots, ?_⟩
    have horder : (idbOf c.ifname).order false = false := rfl
    rw [callBlocks, if_neg hmem, cons_append, singleton_append, interp, hidb]
    dsimp only
    rw [horder, interp, hstep]
    rfl

/-- A packet is read as it was written exactly when its index fits and the memory of its interface
has a zero time-stamp offset. -/
theorem packet_eq_expected_iff (hnodup : names.Nodup) (hmem : c.ifname ∈ names) :
    (.packet ⟨c.buf, c.buf.length, c.buf.length,
      c.time64 + slotOffset fresh (names.idxOf c.ifname % 2 ^ 32),
      names[names.idxOf c.ifname % 2 ^ 32]?⟩ : ReadRet) = c.expected ↔
      names.idxOf c.ifname < 2 ^ 32 ∧ slotOffset fresh (names.idxOf c.ifname) = 0 := by
  have hget : names[names.idxOf c.ifname]? = some c.ifname := getElem?_idxOf hmem
  have hlt : names.idxOf c.ifname < names.length := idxOf_lt_length_iff.mpr hmem
  generalize names.idxOf c.ifname = i at hget hlt ⊢
  constructor
  · intro h
    have hpacket := ReadRet.packet.inj h
    have hname : names[i % 2 ^ 32]? = some c.ifname := congrArg Packet.ifname hpacket
    have htime : c.time64 + slotOffset fresh (i % 2 ^ 32) = c.time64 :=
      congrArg Packet.time64 hpacket
    have hmod : i = i % 2 ^ 32 := (getElem?_inj hlt hnodup).mp (hget.trans hname.symm)
    rw [← hmod] at htime
    exact ⟨by omega, by simpa using htime⟩
  · rintro ⟨hfits, hzero⟩
    rw [Nat.mod_eq_of_lt hfits, hzero, hget, UInt64.add_zero, WriteCall.expected]

/-- The names of the interfaces after calls. -/
def namesAfter (names : List (List UInt8)) (calls : List WriteCall) : List (List UInt8) :=
  calls.foldl (fun names c => addName names c.ifname) names

theorem exists_namesAfter : ∃ more, namesAfter names calls = names ++ more := by
  induction calls generalizing names with
  | nil => exact ⟨[], (append_nil names).symm⟩
  | cons c cs ih =>
    obtain ⟨more, hmore⟩ := @ih (addName names c.ifname)
    rw [namesAfter, foldl_cons]
    by_cases hmem : c.ifname ∈ names
    · exact ⟨more, by rw [← namesAfter, hmore, addName, if_pos hmem]⟩
    · exact ⟨c.ifname :: more, by rw [← namesAfter, hmore, addName, if_neg hmem, append_assoc,
        singleton_append]⟩

theorem nodup_namesAfter (h : names.Nodup) : (namesAfter names calls).Nodup := by
  induction calls generalizing names with
  | nil => exact h
  | cons c cs ih => exact ih (nodup_addName h)

theorem mem_namesAfter :
    name ∈ namesAfter names calls ↔ name ∈ names ∨ ∃ c ∈ calls, c.ifname = name := by
  induction calls generalizing names with
  | nil => simp [namesAfter]
  | cons c cs ih =>
    rw [namesAfter, foldl_cons, ← namesAfter, ih, exists_mem_cons_iff, ← or_assoc]
    apply or_congr_left
    unfold addName
    split_ifs with hmem
    · exact ⟨.inl, fun h => h.elim id fun h => h ▸ hmem⟩
    · rw [mem_append, mem_singleton, eq_comm]

/-- The calls of the reader return what was written exactly when every index fits and the memory of
every interface has a zero time-stamp offset. -/
theorem interp_callsBlocks_iff (hcalls : ∀ c ∈ calls, c.Ok) (hnodup : names.Nodup)
    (h : Slots fresh names st.interfaces) :
    interp e fresh binaryTime false st (callsBlocks names calls) = calls.map WriteCall.expected ++
      [.eof] ↔
      ∀ c ∈ calls, (namesAfter names calls).idxOf c.ifname < 2 ^ 32 ∧
        slotOffset fresh ((namesAfter names calls).idxOf c.ifname) = 0 := by
  induction calls generalizing names st with
  | nil => simp [callsBlocks, interp]
  | cons c cs ih =>
    rw [forall_mem_cons] at hcalls
    obtain ⟨st', hslots, hread⟩ := interp_callBlocks hcalls.1 h
    have hidx : (namesAfter names (c :: cs)).idxOf c.ifname =
      (addName names c.ifname).idxOf c.ifname := by
      obtain ⟨more, hmore⟩ : ∃ more, namesAfter (addName names c.ifname) cs =
        addName names c.ifname ++ more := exists_namesAfter
      rw [namesAfter, foldl_cons, ← namesAfter, hmore, idxOf_append_of_mem mem_addName]
    rw [callsBlocks, hread, forall_mem_cons, hidx, map_cons, cons_append,
      cons_eq_cons,
      packet_eq_expected_iff (nodup_addName hnodup) mem_addName,
      ih hcalls.2 (nodup_addName hnodup) hslots]
    rfl

theorem forall_idxOf_namesAfter {P : ℕ → Prop} :
    (∀ c ∈ calls, P ((namesAfter [] calls).idxOf c.ifname)) ↔
      ∀ j < (calls.map WriteCall.ifname).toFinset.card, P j := by
  have hnodup : (namesAfter [] calls).Nodup := nodup_namesAfter nodup_nil
  have hmem : ∀ {name}, name ∈ namesAfter [] calls ↔ ∃ c ∈ calls, c.ifname = name := by
    intro name
    rw [mem_namesAfter, or_iff_right (not_mem_nil)]
  have hcard : (calls.map WriteCall.ifname).toFinset.card = (namesAfter [] calls).length := by
    rw [← toFinset_card_of_nodup hnodup]
    congr 1
    ext name
    rw [mem_toFinset, mem_toFinset, hmem, mem_map]
  rw [hcard]
  constructor
  · intro h j hj
    obtain ⟨c, hc, hname⟩ := hmem.mp (getElem_mem hj)
    have hidx := h c hc
    rwa [hname, hnodup.idxOf_getElem] at hidx
  · intro h c hc
    exact h _ (idxOf_lt_length_iff.mpr (hmem.mpr ⟨c, hc, rfl⟩))

end Calls

/-! ## Round trip -/

section Main

variable (e : Endian) (stringHash : List UInt8 → ℕ) (fresh : ℕ → ℕ → InInterface)
  (binaryTime : UInt64 → ℕ → UInt64) (now : UInt64) (ar : ℕ → InInterface) (buf : CallerBuf)

/-- Packets of 1 to `2^31` bytes, with nonzero times below `2^63` and names of 1 to 65535 bytes, are
written, and reading the file returns them in order with the same bytes, lengths, times and names,
and then the end of the file, exactly when there are at most `2^32` distinct names and the memory of
every interface has a zero time-stamp offset. -/
theorem write_read_iff (calls : List WriteCall) (hcalls : ∀ c ∈ calls, c.Ok) :
    (∃ out, writeCalls e stringHash (outCtxInit e) calls = some out ∧
      ∀ n, readCalls e fresh binaryTime n (inCtxInit out.f now ar buf) =
        some ((calls.map WriteCall.expected ++ [ReadRet.eof]).take n)) ↔
      ∀ j < (calls.map WriteCall.ifname).toFinset.card, j < 2 ^ 32 ∧
        (fresh (Nat.log2 (j + 1)) j).tsoffset = 0 := by
  obtain ⟨out, hwrite, hf⟩ : ∃ out, writeCalls e stringHash (outCtxInit e) calls = some out ∧
      out.f = (outCtxInit e).f ++ encodeFile e false (callsBlocks [] calls) :=
        writeCalls_eq Table.init hcalls
  have hfile : out.f = encodeFile e false (outShb :: callsBlocks [] calls) := by
    rw [hf, outCtxInit_f, encodeFile]
    rfl
  have hok : ∀ b ∈ outShb :: callsBlocks [] calls, b.Ok :=
    forall_mem_cons.mpr ⟨ok_outShb, ok_callsBlocks hcalls⟩
  have hinterp : interp e fresh binaryTime false ⟨now, ⟨ar, 0, 0, 0, 0⟩, buf⟩
    (outShb :: callsBlocks [] calls) =
      calls.map WriteCall.expected ++ [.eof] ↔
      ∀ j < (calls.map WriteCall.ifname).toFinset.card, j < 2 ^ 32 ∧ slotOffset fresh j = 0 := by
    rw [← forall_idxOf_namesAfter, interp, blockStep_outShb]
    exact interp_callsBlocks_iff hcalls nodup_nil Slots.init
  refine Iff.trans ?_ hinterp
  constructor
  · rintro ⟨out', hwrite', hread⟩
    obtain rfl : out = out' := Option.some_inj.mp (hwrite.symm.trans hwrite')
    apply eq_of_take_eq
    intro n
    have hn := hread n
    rw [hfile, inCtxInit, readCalls_encode hok] at hn
    exact Option.some_inj.mp hn
  · intro h
    refine ⟨out, hwrite, fun n => ?_⟩
    rw [hfile, inCtxInit, readCalls_encode hok, h]

end Main

/-- Two packets of one interface and one of another. -/
def sampleCalls : List WriteCall :=
  [⟨[1, 2, 3], 5, 0, [101]⟩, ⟨[4], 6, 0, [102, 103]⟩, ⟨[5, 6], 7, 0, [101]⟩]

theorem ok_sampleCalls : ∀ c ∈ sampleCalls, c.Ok := by
  rw [sampleCalls, forall_mem_cons, forall_mem_cons, forall_mem_singleton]
  refine ⟨?_, ?_, ?_⟩ <;> constructor <;> simp

/-- With zeros in the memory they are read as they were written. -/
theorem write_read_zeros :
    ∃ out, writeCalls .little length (outCtxInit .little) sampleCalls = some out ∧
      ∀ n, readCalls .little (fun _ _ => ⟨none, 0, 0, 0, 0⟩) (fun ts _ => ts) n
        (inCtxInit out.f 1 (fun _ => ⟨none, 0, 0, 0, 0⟩) ⟨true, 0⟩) =
        some ((sampleCalls.map WriteCall.expected ++ [ReadRet.eof]).take n) :=
  (write_read_iff .little length (fun _ _ => ⟨none, 0, 0, 0, 0⟩)
    (fun ts _ => ts) 1 (fun _ => ⟨none, 0, 0, 0, 0⟩)
    ⟨true, 0⟩ sampleCalls ok_sampleCalls).mpr fun j hj => ⟨Nat.lt_trans hj (by decide), rfl⟩

/-- With another time-stamp offset in the memory of the interface, the time of a packet is wrong. -/
theorem time_of_fresh_memory :
    (∀ c ∈ [(⟨[1, 2, 3], 5, 0, [101]⟩ : WriteCall)], c.Ok) ∧
    (writeCalls .little length (outCtxInit .little) [⟨[1, 2, 3], 5, 0, [101]⟩]).bind
      (fun out =>
      readCalls .little (fun _ _ => ⟨none, 0, 0, 0, 7⟩) (fun ts _ => ts) 2
        (inCtxInit out.f 1 (fun _ => ⟨none, 0, 0, 0, 7⟩) ⟨true, 0⟩)) =
      some [.packet ⟨[1, 2, 3], 3, 3, 12, some [101]⟩, .eof] := by
  refine ⟨?_, by decide +kernel⟩
  rw [forall_mem_singleton]
  constructor <;> simp

end Pptk.Mypcap
