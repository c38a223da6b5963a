import Pptk.Mypcap.WellFormed

/-!
# pcapng files: byte order

A file in the byte order of the host, and the same file with its fields swapped.

Main results: `interp_swapped_iff` and `read_swapped_iff`.
-/

namespace Pptk.Mypcap

open Iphdr Lib List Option

/-! ## Swapped files -/

/-- A section in the byte order of the host. -/
def Block.HostOrder : Block → Prop
  | shb swap _ _ _ _ => swap = false
  | _ => True

/-- An interface has a time-stamp resolution (code 9) and a time-stamp offset (code 14). -/
def Block.Explicit : Block → Prop
  | idb _ _ _ opts => (∃ o ∈ opts, o.code = 9) ∧ ∃ o ∈ opts, o.code = 14
  | _ => True

/-- A section in the other byte order. -/
def Block.swapped : Block → Block
  | shb _ major minor sectionLength opts => shb true major minor sectionLength opts
  | b => b

/-- What a call returns, but for the time of a simple packet. -/
def ReadRet.untimed : ReadRet → ReadRet
  | .simple p => .simple { p with time64 := 0 }
  | ret => ret

/-- The simple packet that is read first, if any, is of an interface without a snap length, or its
length is a palindrome. `snaplen?` is the snap length of the first interface of the section. The
calls end at an interface with an empty name and at an enhanced packet that is empty or has options.
-/
def SwapSafe : Option ℕ → List Block → Prop
  | _, [] => True
  | _, .shb _ _ _ _ _ :: bs => SwapSafe none bs
  | snaplen?, .idb _ _ snaplen opts :: bs =>
    (∃ o ∈ opts, o.code = 2 ∧ o.data = []) ∨ SwapSafe (snaplen?.or (some snaplen)) bs
  | snaplen?, .epb _ _ _ _ data _ opts :: bs => (opts ≠ [] ∨ data = []) ∨ SwapSafe snaplen? bs
  | snaplen?, .spb origLen _ _ :: _ => snaplen? = some 0 ∨ byteswap 4 origLen = origLen
  | snaplen?, .other _ _ :: bs => SwapSafe snaplen? bs

/-! ## Interfaces -/

section Options

variable {e : Endian} {intf intf' : InInterface} {o : Opt} {opts : List Opt}

theorem applyOpt_tsoffset {t : UInt64} (hcode : o.code ≠ 14) :
    applyOpt e { intf with tsoffset := t } o = (applyOpt e intf o).map fun i =>
      { i with tsoffset := t } := by
  unfold applyOpt
  rw [if_neg hcode, if_neg hcode]
  split_ifs <;> rfl

theorem applyOpt_tsoffset_of_eq {t : UInt64} (hcode : o.code = 14) :
    applyOpt e { intf with tsoffset := t } o = applyOpt e intf o := by
  simp [applyOpt, hcode]

/-- An interface that has a time-stamp offset does not depend on what was in the memory. -/
theorem foldlM_tsoffset (intf : InInterface) (t : UInt64) (h : ∃ o ∈ opts, o.code = 14) :
    opts.foldlM (applyOpt e) { intf with tsoffset := t } = opts.foldlM (applyOpt e) intf := by
  induction opts generalizing intf with
  | nil => simp at h
  | cons o opts ih =>
    rw [foldlM_cons, foldlM_cons]
    by_cases hcode : o.code = 14
    · rw [applyOpt_tsoffset_of_eq hcode]
    · rw [applyOpt_tsoffset hcode]
      have htail : ∃ o ∈ opts, o.code = 14 := by simpa [hcode] using h
      cases applyOpt e intf o with
      | error err => rfl
      | ok i => exact ih i htail

theorem applyOpt_snaplen (h : applyOpt e intf o = .ok intf') : intf'.snaplen = intf.snaplen := by
  unfold applyOpt at h
  split_ifs at h <;> cases h <;> rfl

theorem foldlM_snaplen (h : opts.foldlM (applyOpt e) intf = .ok intf') :
    intf'.snaplen = intf.snaplen := by
  induction opts generalizing intf with
  | nil =>
    cases h
    rfl
  | cons o opts ih =>
    rw [foldlM_cons] at h
    cases hone : applyOpt e intf o with
    | error err =>
      rw [hone] at h
      cases h
    | ok i =>
      rw [hone, ok_bind] at h
      rw [ih h, applyOpt_snaplen hone]

end Options

/-- Two arrays of the same interfaces, with the given snap lengths. -/
structure Agree (snaplens : List ℕ) (a1 a2 : InInterfaces) : Prop where
  size1 : a1.size = snaplens.length
  size2 : a2.size = snaplens.length
  ar : ∀ i < snaplens.length, a1.ar i = a2.ar i
  first : ∀ s ∈ snaplens.head?, (a1.ar 0).snaplen = s

namespace Agree

variable {snaplens : List ℕ} {a1 a2 : InInterfaces}

theorem freeInterfaces : Agree [] a1.freeInterfaces a2.freeInterfaces where
  size1 := rfl
  size2 := rfl
  ar := by simp
  first := by simp

theorem add {fresh1 fresh2 : ℕ → ℕ → InInterface} {intf : InInterface} (h : Agree snaplens a1 a2) :
    Agree (snaplens ++ [intf.snaplen]) ((a1.pushBack fresh1).setLast intf)
      ((a2.pushBack fresh2).setLast intf) := by
  have har : ∀ i < snaplens.length + 1, ((a1.pushBack fresh1).setLast intf).ar i =
      ((a2.pushBack fresh2).setLast intf).ar i := by
    intro i hi
    by_cases hlast : i = snaplens.length
    · rw [hlast]
      nth_rewrite 1 [← h.size1]
      rw [← h.size2, ar_setLast_pushBack_self, ar_setLast_pushBack_self]
    · have hlt : i < snaplens.length := by omega
      rw [ar_setLast_pushBack (by rw [h.size1]; exact hlt),
        ar_setLast_pushBack (by rw [h.size2]; exact hlt), h.ar i hlt]
  refine ⟨?_, ?_, ?_, ?_⟩
  · rw [size_setLast, size_pushBack, h.size1, length_append, length_singleton]
  · rw [size_setLast, size_pushBack, h.size2, length_append, length_singleton]
  · rw [length_append, length_singleton]
    exact har
  · intro s hs
    cases snaplens with
    | nil =>
      have hzero : a1.size = 0 := h.size1
      have hself : ((a1.pushBack fresh1).setLast intf).ar a1.size = intf := ar_setLast_pushBack_self
      rw [hzero] at hself
      rw [hself]
      simpa using hs
    | cons t ts =>
      rw [ar_setLast_pushBack (by rw [h.size1]; simp)]
      exact h.first s (by simpa using hs)

end Agree

/-! ## What the calls return -/

section Calls

variable {e : Endian} {fresh1 fresh2 : ℕ → ℕ → InInterface} {binaryTime : UInt64 → ℕ → UInt64}
  {st1 st2 : InState}

/-- The calls return the same for the swapped blocks exactly when the simple packet that is read
first allows it. -/
theorem interp_swapped_iff {snaplens : List ℕ} {bs : List Block} (hok : ∀ b ∈ bs, b.Ok)
    (hsections : Sections snaplens bs) (hhost : ∀ b ∈ bs, b.HostOrder)
    (hexplicit : ∀ b ∈ bs, b.Explicit) (hagree : Agree snaplens st1.interfaces st2.interfaces) :
    (interp e fresh1 binaryTime false st1 bs).map ReadRet.untimed =
      (interp e fresh2 binaryTime true st2 (bs.map Block.swapped)).map ReadRet.untimed ↔
      SwapSafe snaplens.head? bs := by
  induction bs generalizing st1 st2 snaplens with
  | nil => simp [interp, SwapSafe]
  | cons b bs ih =>
    rw [forall_mem_cons] at hok hhost hexplicit
    obtain ⟨hok, hoks⟩ := hok
    obtain ⟨hhost, hhosts⟩ := hhost
    obtain ⟨hexplicit, hexplicits⟩ := hexplicit
    rw [map_cons, interp, interp]
    cases b with
    | shb s major minor sectionLength opts =>
      obtain ⟨hmajor, hsections⟩ := hsections
      obtain rfl : s = false := hhost
      rw [Block.swapped, blockStep, blockStep, if_neg (by simp [hmajor]), if_neg (by simp [hmajor])]
      exact ih hoks hsections hhosts hexplicits .freeInterfaces
    | idb linktype reserved snaplen opts =>
      obtain ⟨hopts, hsections⟩ := hsections
      simp only [Block.swapped, blockStep]
      generalize (((st1.interfaces.pushBack fresh1).ar _).tsoffset) = t1
      generalize (((st2.interfaces.pushBack fresh2).ar _).tsoffset) = t2
      have hsame : opts.foldlM (applyOpt e) ⟨none, snaplen, linktype, 6, t2⟩ =
          opts.foldlM (applyOpt e) ⟨none, snaplen, linktype, 6, t1⟩ :=
        foldlM_tsoffset ⟨none, snaplen, linktype, 6, t1⟩ t2 hexplicit.2
      have hiff : (∃ intf', opts.foldlM (applyOpt e) ⟨none, snaplen, linktype, 6, t1⟩ = .ok intf') ↔
          ∀ o ∈ opts, o.code = 2 → o.data ≠ [] :=
            foldlM_applyOpt hopts.tsresol hopts.tsoffset hopts.name
      rw [hsame, SwapSafe]
      cases hfold : opts.foldlM (applyOpt e) ⟨none, snaplen, linktype, 6, t1⟩ with
      | error err =>
        refine iff_of_true rfl (.inl ?_)
        by_contra hnone
        obtain ⟨intf, hintf⟩ := hiff.mpr fun o ho htwo hempty => hnone ⟨o, ho, htwo, hempty⟩
        rw [hfold] at hintf
        cases hintf
      | ok intf =>
        have hnone : ¬∃ o ∈ opts, o.code = 2 ∧ o.data = [] := by
          rintro ⟨o, ho, htwo, hempty⟩
          exact hiff.mp ⟨intf, hfold⟩ o ho htwo hempty
        have hsnaplen : intf.snaplen = snaplen := foldlM_snaplen hfold
        subst hsnaplen
        rw [or_iff_right hnone, ← head?_singleton, ← head?_append]
        exact ih hoks hsections hhosts hexplicits hagree.add
    | epb ifid tshi tslo origLen data pad opts =>
      obtain ⟨hifid, hsections⟩ := hsections
      simp only [Block.swapped, blockStep]
      rw [hagree.size1, hagree.size2, hagree.ar ifid hifid, SwapSafe]
      by_cases hbad : opts ≠ [] ∨ data = []
      · rw [if_pos (.inr hbad), if_pos (.inr hbad)]
        exact iff_of_true rfl (.inl hbad)
      · have hgood : ¬(ifid ≥ snaplens.length ∨ opts ≠ [] ∨ data = []) := by
          rintro (h | h)
          · omega
          · exact hbad h
        rw [if_neg hgood, if_neg hgood, or_iff_right hbad]
        dsimp only
        rw [map_cons, map_cons, cons_eq_cons, eq_self_iff_true, true_and]
        exact ih hoks hsections hhosts hexplicits hagree
    | spb origLen data pad =>
      obtain ⟨⟨s, hs, hlen⟩, -⟩ := hsections
      have hpos : 0 < snaplens.length := length_pos_iff.mpr (by rintro rfl; cases hs)
      have hfirst : (st2.interfaces.ar 0).snaplen = s := by
        rw [← hagree.ar 0 hpos]
        exact hagree.first s hs
      rw [mem_def] at hs
      simp only [Block.swapped, blockStep, SwapSafe, Bool.false_eq_true, if_false, if_true]
      rw [hagree.size1, hagree.size2, hagree.ar 0 hpos, hfirst, hs, some_inj]
      by_cases hzero : s = 0
      · have hbad : ∀ len, snaplens.length = 0 ∨ padded (min len s) ≠ data.length + pad.length ∨
          min len s = 0 := fun len => .inr (.inr (by rw [hzero, Nat.min_zero]))
        rw [if_pos (hbad _), if_pos (hbad _)]
        exact iff_of_true rfl (.inl hzero)
      rw [or_iff_right hzero]
      by_cases hswap : byteswap 4 origLen = origLen
      · rw [hswap]
        refine iff_of_true ?_ rfl
        split_ifs <;> rfl
      · -- the packet in the order of the host is read
        rw [spbCaptured, if_neg hzero] at hlen
        have hgood : ¬(snaplens.length = 0 ∨ padded (min origLen s) ≠ data.length + pad.length ∨
          min origLen s = 0) := by
          rintro (h | h | h)
          · omega
          · exact h (by rw [← hlen,
              padded_of_isPad hok.2.2.1 (by have := hok.1; rw [Block.tlen] at this; omega)])
          · obtain rfl : origLen = 0 := by omega
            exact hswap rfl
        rw [if_neg hgood]
        refine iff_of_false (fun h => ?_) hswap
        by_cases hbad : snaplens.length = 0 ∨ padded (min (byteswap 4 origLen) s) ≠ data.length +
          pad.length ∨ min (byteswap 4 origLen) s = 0
        · rw [if_pos hbad] at h
          exact ReadRet.noConfusion (cons.inj h).1
        · rw [if_neg hbad] at h
          have hpacket := ReadRet.simple.inj (cons.inj h).1
          exact hswap (congrArg Packet.len hpacket).symm
    | other btype body => exact ih hoks hsections hhosts hexplicits hagree

end Calls

/-! ## The two files -/

theorem Block.Ok.swapped {b : Block} (hok : b.Ok) : b.swapped.Ok := by
  cases b <;> exact hok

theorem interp_swapped_first {e : Endian} {fresh : ℕ → ℕ → InInterface}
    {binaryTime : UInt64 → ℕ → UInt64} {st : InState} {bs : List Block}
    (hfirst : ∃ b ∈ bs.head?, b.IsShb) :
    interp e fresh binaryTime false st (bs.map Block.swapped) = interp e fresh binaryTime true st
      (bs.map Block.swapped) := by
  obtain ⟨b, hb, hshb⟩ := hfirst
  cases bs with
  | nil => cases hb
  | cons c bs =>
    obtain rfl : c = b := some_inj.mp hb
    cases c with
    | shb s major minor sectionLength opts => rfl
    | _ => cases hshb

section Main

variable (e : Endian) (fresh1 fresh2 : ℕ → ℕ → InInterface) (binaryTime : UInt64 → ℕ → UInt64)
  (now1 now2 : UInt64)
  (ar1 ar2 : ℕ → InInterface) (buf1 buf2 : CallerBuf)

/-- For a well-formed file in the byte order of the host, whose interfaces have time-stamp
resolutions and offsets, and the same file swapped, the calls return the same codes, packet bytes,
lengths and names, and for enhanced packets the same times, exactly when the simple packet that is
read first, if any, is of an interface without a snap length or has a length that is a palindrome.
-/
theorem read_swapped_iff (bs : List Block) (hwf : WellFormed bs) (hhost : ∀ b ∈ bs, b.HostOrder)
    (hexplicit : ∀ b ∈ bs, b.Explicit) :
    (∀ n, (readCalls e fresh1 binaryTime n (inCtxInit (encodeFile e false bs) now1 ar1 buf1)).map
        (map ReadRet.untimed) =
      (readCalls e fresh2 binaryTime n
        (inCtxInit (encodeFile e false (bs.map Block.swapped)) now2 ar2 buf2)).map
        (map ReadRet.untimed)) ↔ SwapSafe none bs := by
  have hoks : ∀ b ∈ bs.map Block.swapped, b.Ok := by
    intro b hb
    obtain ⟨b, hmem, rfl⟩ := mem_map.mp hb
    exact (hwf.ok b hmem).swapped
  have hiff : (interp e fresh1 binaryTime false ⟨now1, ⟨ar1, 0, 0, 0, 0⟩, buf1⟩ bs).map
    ReadRet.untimed =
      (interp e fresh2 binaryTime true ⟨now2, ⟨ar2, 0, 0, 0, 0⟩, buf2⟩ (bs.map Block.swapped)).map
        ReadRet.untimed ↔
      SwapSafe none bs :=
    interp_swapped_iff hwf.ok hwf.sections hhost hexplicit ⟨rfl, rfl, by simp, by simp⟩
  rw [← hiff]
  simp only [inCtxInit, readCalls_encode hwf.ok, readCalls_encode hoks, map_some,
    some_inj, map_take, interp_swapped_first hwf.first]
  constructor
  · intro h
    exact eq_of_take_eq h
  · intro h n
    rw [h]

end Main

/-- A file with an interface that has a snap length, a time-stamp resolution and a time-stamp
offset, and the given packet. -/
def timedInterface (snaplen : ℕ) (b : Block) : List Block :=
  [.shb false 1 0 0xFFFFFFFFFFFFFFFF [],
    .idb 1 0 snaplen [⟨9, [9], [0, 0, 0]⟩, ⟨14, [1, 0, 0, 0, 0, 0, 0, 0], []⟩, ⟨0, [], []⟩], b]

theorem wellFormed_timedInterface {snaplen : ℕ} {b : Block} (hsnaplen : snaplen < 2 ^ 32)
    (hok : b.Ok) (hb : Sections [snaplen] [b]) : WellFormed (timedInterface snaplen b) where
  ok := by
    rw [timedInterface, forall_mem_cons, forall_mem_cons, forall_mem_singleton]
    refine ⟨?_, ⟨?_, ?_, ?_, hsnaplen, ?_⟩, hok⟩ <;>
      simp [Block.Ok, Block.tlen, optsLength, Opt.ok_iff, IsPad]
  first := ⟨_, rfl, trivial⟩
  sections := ⟨rfl, ⟨by simp, by simp, by decide⟩, hb⟩

/-- A simple packet of 0x01000001 bytes, of which 4 are captured, is read alike. -/
theorem read_swapped_palindrome :
    WellFormed (timedInterface 4 (.spb 0x01000001 [1, 2, 3, 4] [])) ∧
    ∀ n, (readCalls .little (fun _ _ => ⟨none, 0, 0, 0, 7⟩)
      (fun ts _ => ts) n (inCtxInit (encodeFile .little false
        (timedInterface 4 (.spb 0x01000001 [1, 2, 3, 4] []))) 1 (fun _ => ⟨none, 0, 0, 0, 7⟩) ⟨true,
          0⟩)).map
        (map ReadRet.untimed) =
      (readCalls .little (fun _ _ => ⟨none, 0, 0, 0, 8⟩)
        (fun ts _ => ts) n (inCtxInit (encodeFile .little false
        ((timedInterface 4 (.spb 0x01000001 [1, 2, 3, 4] [])).map Block.swapped)) 2
          (fun _ => ⟨none, 0, 0, 0, 8⟩)
        ⟨true, 0⟩)).map (map ReadRet.untimed) := by
  have hwf : WellFormed (timedInterface 4 (.spb 0x01000001 [1, 2, 3, 4] [])) :=
    wellFormed_timedInterface (by decide) (by simp [Block.Ok, Block.tlen, IsPad]) ⟨⟨_, rfl, rfl⟩,
      trivial⟩
  refine ⟨hwf, (read_swapped_iff .little _ _ _ _ _ _ _ _ _ _ hwf
    (by simp [timedInterface, Block.HostOrder])
    (by simp [timedInterface, Block.Explicit])).mpr ?_⟩
  simp only [timedInterface, SwapSafe]
  exact .inr (.inr (by decide))

/-- A simple packet of 4 bytes is read in the byte order of the host, and is an error in the other
one. -/
theorem simple_packet_not_swapped :
    WellFormed (timedInterface 65535 (.spb 4 [1, 2, 3, 4] [])) ∧
    (∀ b ∈ timedInterface 65535 (.spb 4 [1, 2, 3, 4] []), b.HostOrder ∧ b.Explicit) ∧
    readCalls .little (fun _ _ => ⟨none, 0, 0, 0, 7⟩)
      (fun ts _ => ts) 1 (inCtxInit (encodeFile .little false
      (timedInterface 65535 (.spb 4 [1, 2, 3, 4] []))) 1 (fun _ => ⟨none, 0, 0, 0, 7⟩) ⟨true, 0⟩) =
      some [.simple ⟨[1, 2, 3, 4], 4, 4, 1, none⟩] ∧
    readCalls .little (fun _ _ => ⟨none, 0, 0, 0, 7⟩)
      (fun ts _ => ts) 1 (inCtxInit (encodeFile .little false
      ((timedInterface 65535 (.spb 4 [1, 2, 3, 4] [])).map Block.swapped)) 1
        (fun _ => ⟨none, 0, 0, 0, 7⟩) ⟨true, 0⟩) =
      some [.error .einval] := by
  refine ⟨wellFormed_timedInterface (by decide) ?_ ⟨⟨_, rfl, rfl⟩, trivial⟩,
    ?_, by decide +kernel, by decide +kernel⟩
  · simp [Block.Ok, Block.tlen, IsPad]
  · simp [timedInterface, Block.HostOrder, Block.Explicit]

end Pptk.Mypcap
