import Pptk.Mypcap.Blocks

/-!
# pcapng files: well-formed files

What the calls of the reader return for a well-formed file.

Main results: `foldlM_applyOpt`, `interp_view_iff` and `read_well_formed_iff`.
-/

namespace Pptk.Mypcap

open Iphdr Lib List

/-! ## Well-formed files -/

theorem Opt.ok_iff {o : Opt} :
    o.Ok ↔ o.code < 2 ^ 16 ∧ o.data.length < 2 ^ 16 ∧ IsPad o.data o.pad :=
  ⟨fun h => ⟨h.code, h.length, h.pad⟩, fun h => ⟨h.1, h.2.1, h.2.2⟩⟩

/-- The options of an interface: the time-stamp resolution is a byte, the time-stamp offset is 8
bytes, and there is at most one name. -/
structure IdbOpts (opts : List Opt) : Prop where
  tsresol : ∀ o ∈ opts, o.code = 9 → o.data.length = 1
  tsoffset : ∀ o ∈ opts, o.code = 14 → o.data.length = 8
  name : opts.countP (·.code = 2) ≤ 1

/-- How much of a simple packet is captured; no snap length means no limit. -/
def spbCaptured (snaplen origLen : ℕ) : ℕ := if snaplen = 0 then origLen else min origLen snaplen

/-- Blocks in a section in which interfaces with the given snap lengths are already described. -/
def Sections : List ℕ → List Block → Prop
  | _, [] => True
  | _, .shb _ major _ _ _ :: bs => major = 1 ∧ Sections [] bs
  | snaplens, .idb _ _ snaplen opts :: bs => IdbOpts opts ∧ Sections (snaplens ++ [snaplen]) bs
  | snaplens, .epb ifid _ _ _ _ _ _ :: bs => ifid < snaplens.length ∧ Sections snaplens bs
  | snaplens, .spb origLen data _ :: bs =>
    (∃ s ∈ snaplens.head?, data.length = spbCaptured s origLen) ∧ Sections snaplens bs
  | snaplens, .other _ _ :: bs => Sections snaplens bs

/-- The block is a section header. -/
def Block.IsShb : Block → Prop
  | shb _ _ _ _ _ => True
  | _ => False

/-- A well-formed file begins with a section header, and its packets are of interfaces that are
described before them in the section. -/
structure WellFormed (bs : List Block) : Prop where
  ok : ∀ b ∈ bs, b.Ok
  first : ∃ b ∈ bs.head?, b.IsShb
  sections : Sections [] bs

/-- The captured bytes, the captured length and the original length of a packet. -/
def Block.captured? : Block → Option (List UInt8 × ℕ × ℕ)
  | epb _ _ _ origLen data _ _ => some (data, data.length, origLen)
  | spb origLen data _ => some (data, data.length, origLen)
  | _ => none

/-- What a call returns: the code 0, the code 1 with a packet, or an error. -/
def ReadRet.view : ReadRet → Except Errno (Option (List UInt8 × ℕ × ℕ))
  | .eof => .ok none
  | .simple _ => .ok none
  | .packet p => .ok (some (p.data, p.snap, p.len))
  | .error err => .error err

/-- What the calls are to return: every packet, and then the end of the file. -/
def expectedViews (bs : List Block) : List (Except Errno (Option (List UInt8 × ℕ × ℕ))) :=
  (bs.filterMap Block.captured?).map (fun c => .ok (some c)) ++ [.ok none]

/-- Neither a simple packet, nor a packet with options, nor an interface with an empty name. -/
def Block.Readable : Block → Prop
  | idb _ _ _ opts => ∀ o ∈ opts, o.code = 2 → o.data ≠ []
  | epb _ _ _ _ _ _ opts => opts = []
  | spb _ _ _ => False
  | _ => True

/-! ## Options of an interface -/

section Options

variable {e : Endian} {intf : InInterface} {o : Opt}

/-- The options are accepted exactly when no name is empty. -/
theorem foldlM_applyOpt {opts : List Opt} (htsresol : ∀ o ∈ opts, o.code = 9 → o.data.length = 1)
    (htsoffset : ∀ o ∈ opts, o.code = 14 → o.data.length = 8)
    (hname : opts.countP (·.code = 2) + (if intf.name = none then 0 else 1) ≤ 1) :
    (∃ intf', opts.foldlM (applyOpt e) intf = .ok intf') ↔ ∀ o ∈ opts, o.code = 2 →
      o.data ≠ [] := by
  induction opts generalizing intf with
  | nil => simp [pure, Except.pure]
  | cons o opts ih =>
    rw [foldlM_cons, forall_mem_cons]
    rw [countP_cons] at hname
    have htail := fun intf' => @ih intf' (fun o ho => htsresol o (by simp [ho]))
      (fun o ho => htsoffset o (by simp [ho]))
    by_cases htwo : o.code = 2
    · have hnone : intf.name = none := by
        by_contra hsome
        simp [htwo, hsome] at hname
      by_cases hempty : o.data = []
      · have herror : applyOpt e intf o = .error .einval := by
          simp [applyOpt, htwo, hempty]
        rw [herror]
        simp [htwo, hempty, bind, Except.bind]
      · have hok : applyOpt e intf o = .ok { intf with
          name := some (o.data.takeWhile (· ≠ 0)) } := by
          simp [applyOpt, htwo, hempty, hnone]
        rw [hok, ok_bind, htail _ (by simpa [htwo, hnone] using hname)]
        simp [hempty]
    · obtain ⟨intf', hok, hkeep⟩ : ∃ intf', applyOpt e intf o = .ok intf' ∧
        intf'.name = intf.name := by
        unfold applyOpt
        rw [if_neg htwo]
        split_ifs with hnine hbad hfourteen hbad
        · exact absurd (htsresol o (by simp) hnine) hbad
        · exact ⟨_, rfl, rfl⟩
        · exact absurd (htsoffset o (by simp) hfourteen) hbad
        · exact ⟨_, rfl, rfl⟩
        · exact ⟨_, rfl, rfl⟩
      rw [hok, ok_bind, htail _ (by simpa [htwo, hkeep] using hname)]
      simp [htwo]

end Options

/-! ## Arrays of interfaces -/

section Interfaces

variable {fresh : ℕ → ℕ → InInterface} {a : InInterfaces} {intf : InInterface}

@[simp] theorem size_pushBack : (a.pushBack fresh).size = a.size + 1 := by
  unfold InInterfaces.pushBack
  split_ifs <;> rfl

@[simp] theorem size_setLast : (a.setLast intf).size = a.size := rfl

theorem ar_setLast_pushBack {i : ℕ} (hi : i < a.size) :
    ((a.pushBack fresh).setLast intf).ar i = a.ar i := by
  rw [InInterfaces.setLast, size_pushBack]
  dsimp only
  rw [Function.update_of_ne (by omega), InInterfaces.pushBack]
  by_cases hroom : a.size + 1 ≤ a.capacity
  · rw [if_pos hroom]
  · rw [if_neg hroom]
    exact if_pos hi

theorem ar_setLast_pushBack_self : ((a.pushBack fresh).setLast intf).ar a.size = intf := by
  rw [InInterfaces.setLast, size_pushBack]
  exact Function.update_self ..

end Interfaces

/-! ## What the calls return -/

section Calls

variable {e : Endian} {fresh : ℕ → ℕ → InInterface} {binaryTime : UInt64 → ℕ → UInt64} {swap : Bool}
  {st : InState}

theorem blockStep_spb {origLen : ℕ} {data pad : List UInt8} :
    ∃ ret, blockStep e fresh binaryTime swap st (.spb origLen data pad) = .stop ret := by
  simp only [blockStep]
  split_ifs <;> exact ⟨_, rfl⟩

variable {bs : List Block}

theorem length_interp :
    (interp e fresh binaryTime swap st bs).length ≤ (bs.filterMap Block.captured?).length + 1 := by
  induction bs generalizing swap st with
  | nil => exact Nat.le_refl 1
  | cons b bs ih =>
    have hmono : (bs.filterMap Block.captured?).length ≤
      ((b :: bs).filterMap Block.captured?).length := by
      rw [filterMap_cons]
      split <;> simp
    rw [interp]
    cases hstep : blockStep e fresh binaryTime swap st b with
    | next st' => exact Nat.le_trans ih (by omega)
    | stop ret => simp
    | packet p st' =>
      -- only an enhanced packet makes a call return 1
      cases b with
      | epb ifid tshi tslo origLen data pad opts =>
        have hrest := @ih ((Block.epb ifid tshi tslo origLen data pad opts).order swap) st'
        simp only [filterMap_cons, Block.captured?, length_cons]
        omega
      | other btype body => simp [blockStep] at hstep
      | spb origLen data pad =>
        obtain ⟨ret, hstop⟩ := blockStep_spb.imp fun _ => (hstep.symm.trans ·)
        cases hstop
      | _ =>
        simp only [blockStep] at hstep
        split at hstep <;> simp at hstep

theorem expectedViews_cons_none {b : Block} (h : b.captured? = none) :
    expectedViews (b :: bs) = expectedViews bs := by
  rw [expectedViews, filterMap_cons_none h, expectedViews]

theorem expectedViews_cons_some {b : Block} {c : List UInt8 × ℕ × ℕ} (h : b.captured? = some c) :
    expectedViews (b :: bs) = .ok (some c) :: expectedViews bs := by
  rw [expectedViews, filterMap_cons_some h, expectedViews, map_cons, cons_append]

theorem error_ne_expectedViews {err : Errno} :
    [ReadRet.error err].map ReadRet.view ≠ expectedViews bs := by
  intro h
  have hmem : (.error err : Except Errno (Option (List UInt8 × ℕ × ℕ))) ∈ expectedViews bs := by
    rw [← h]
    simp [ReadRet.view]
  simp [expectedViews] at hmem

/-- The calls return every packet exactly when every block can be read. -/
theorem interp_view_iff {snaplens : List ℕ} (hsections : Sections snaplens bs)
    (hnonempty : ∀ b ∈ bs, ∀ c ∈ b.captured?, c.1 ≠ [])
    (hsize : st.interfaces.size = snaplens.length) :
    (interp e fresh binaryTime swap st bs).map ReadRet.view = expectedViews bs ↔
      ∀ b ∈ bs, b.Readable := by
  induction bs generalizing swap st snaplens with
  | nil => simp [interp, expectedViews, ReadRet.view]
  | cons b bs ih =>
    rw [forall_mem_cons] at hnonempty
    rw [interp, forall_mem_cons]
    cases b with
    | shb s major minor sectionLength opts =>
      obtain ⟨hmajor, hsections⟩ := hsections
      have hstep : blockStep e fresh binaryTime swap st (.shb s major minor sectionLength opts) =
          .next { st with interfaces := st.interfaces.freeInterfaces } := if_neg (by simp [hmajor])
      rw [hstep, expectedViews_cons_none rfl]
      exact (ih hsections hnonempty.2 rfl).trans (and_iff_right trivial).symm
    | idb linktype reserved snaplen opts =>
      obtain ⟨hopts, hsections⟩ := hsections
      rw [blockStep, expectedViews_cons_none rfl]
      dsimp only
      generalize hintf : InInterface.mk none snaplen linktype 6 _ = intf
      have hiff : (∃ intf', opts.foldlM (applyOpt e) intf = .ok intf') ↔
          (Block.idb linktype reserved snaplen opts).Readable := by
        apply foldlM_applyOpt hopts.tsresol hopts.tsoffset
        rw [← hintf, if_pos rfl]
        exact hopts.name
      cases hfold : opts.foldlM (applyOpt e) intf with
      | error err =>
        refine iff_of_false error_ne_expectedViews fun h => ?_
        obtain ⟨intf', hok⟩ := hiff.mpr h.1
        rw [hfold] at hok
        cases hok
      | ok intf' =>
        have hsize' : ((st.interfaces.pushBack fresh).setLast intf').size =
          (snaplens ++ [snaplen]).length := by
          rw [size_setLast, size_pushBack, hsize, length_append, length_singleton]
        exact (ih hsections hnonempty.2 hsize').trans (and_iff_right (hiff.mp ⟨intf', hfold⟩)).symm
    | epb ifid tshi tslo origLen data pad opts =>
      obtain ⟨hifid, hsections⟩ := hsections
      have hdata : data ≠ [] := hnonempty.1 _ rfl
      rw [blockStep]
      by_cases hopts : opts = []
      · rw [if_neg (by simp [hopts, hdata, hsize, hifid]), expectedViews_cons_some rfl]
        dsimp only
        rw [map_cons, ReadRet.view, cons_eq_cons, eq_self_iff_true, true_and]
        refine Iff.trans (ih hsections hnonempty.2 ?_) (and_iff_right hopts).symm
        exact hsize
      · rw [if_pos (.inr (.inl hopts))]
        exact iff_of_false error_ne_expectedViews fun h => hopts h.1
    | spb origLen data pad =>
      -- a call that returns 0 is the last one
      refine iff_of_false (fun h => ?_) fun h => h.1
      obtain ⟨ret, hstop⟩ : ∃ ret, blockStep e fresh binaryTime swap st (.spb origLen data pad) =
        .stop ret := blockStep_spb
      rw [hstop, expectedViews_cons_some rfl] at h
      simp [expectedViews] at h
    | other btype body =>
      rw [blockStep, expectedViews_cons_none rfl]
      exact (ih hsections hnonempty.2 hsize).trans (and_iff_right trivial).symm

end Calls

/-! ## Well-formed files are read -/

section Main

variable (e : Endian) (fresh : ℕ → ℕ → InInterface) (binaryTime : UInt64 → ℕ → UInt64)
  (now : UInt64)
  (ar : ℕ → InInterface) (buf : CallerBuf)

/-- For a well-formed file whose packets are not empty, the calls return 1 once for each packet, in
the order of the file and with its captured bytes, captured length and original length, and then 0,
exactly when the file has no simple packets, no enhanced packets with options and no interfaces with
an empty name. -/
theorem read_well_formed_iff (bs : List Block) (hwf : WellFormed bs)
    (hnonempty : ∀ b ∈ bs, ∀ c ∈ b.captured?, c.1 ≠ []) (n : ℕ)
    (hn : (bs.filterMap Block.captured?).length < n) :
    (readCalls e fresh binaryTime n (inCtxInit (encodeFile e false bs) now ar buf)).map
      (map ReadRet.view) = some (expectedViews bs) ↔ ∀ b ∈ bs, b.Readable := by
  rw [inCtxInit, readCalls_encode hwf.ok, take_of_length_le (Nat.le_trans length_interp hn),
    Option.map_some, Option.some_inj]
  exact interp_view_iff hwf.sections hnonempty rfl

end Main

/-- A file with an interface `eth0` and the given packet. -/
def oneInterface (b : Block) : List Block :=
  [.shb false 1 0 0xFFFFFFFFFFFFFFFF [], .idb 1 0 65535 [⟨2, [101, 116, 104, 48], []⟩, ⟨0, [], []⟩],
    b]

theorem wellFormed_oneInterface {b : Block} (hok : b.Ok) (hb : Sections [65535] [b]) :
    WellFormed (oneInterface b) where
  ok := by
    rw [oneInterface, forall_mem_cons, forall_mem_cons, forall_mem_singleton]
    refine ⟨?_, ?_, hok⟩ <;> simp [Block.Ok, Block.tlen, optsLength, Opt.ok_iff, IsPad]
  first := ⟨_, rfl, trivial⟩
  sections := ⟨rfl, ⟨by simp, by simp, by decide⟩, hb⟩

/-- A packet of 3 bytes is read. -/
theorem read_well_formed_three :
    (readCalls .little (fun _ _ => ⟨none, 0, 0, 0, 7⟩) (fun ts _ => ts) 2
      (inCtxInit (encodeFile .little false (oneInterface (.epb 0 0 5 60 [1, 2, 3] [0] []))) 1
        (fun _ => ⟨none, 0, 0, 0, 7⟩) ⟨true, 0⟩)).map (map ReadRet.view) =
      some [.ok (some ([1, 2, 3], 3, 60)), .ok none] :=
  (read_well_formed_iff _ _ _ _ _ _ (oneInterface (.epb 0 0 5 60 [1, 2, 3] [0] []))
    (wellFormed_oneInterface (by simp [Block.Ok, Block.tlen, optsLength, IsPad]) ⟨by decide,
      trivial⟩)
    (by simp [oneInterface, Block.captured?]) 2 (by decide)).mpr
      (by simp [oneInterface, Block.Readable])

/-- A packet with a comment is an error, and a simple packet is returned with the code 0. -/
theorem packet_not_read :
    WellFormed (oneInterface (.epb 0 0 5 4 [1, 2, 3, 4] [] [⟨1, [104, 105], [0, 0]⟩])) ∧
    readCalls .little (fun _ _ => ⟨none, 0, 0, 0, 7⟩) (fun ts _ => ts) 2
      (inCtxInit (encodeFile .little false
        (oneInterface (.epb 0 0 5 4 [1, 2, 3, 4] [] [⟨1, [104, 105], [0, 0]⟩]))) 1
        (fun _ => ⟨none, 0, 0, 0, 7⟩) ⟨true, 0⟩) = some [.error .einval] ∧
    WellFormed (oneInterface (.spb 4 [1, 2, 3, 4] [])) ∧
    readCalls .little (fun _ _ => ⟨none, 0, 0, 0, 7⟩) (fun ts _ => ts) 2
      (inCtxInit (encodeFile .little false (oneInterface (.spb 4 [1, 2, 3, 4] []))) 1
        (fun _ => ⟨none, 0, 0, 0, 7⟩) ⟨true, 0⟩) =
      some [.simple ⟨[1, 2, 3, 4], 4, 4, 1, some [101, 116, 104, 48]⟩] := by
  refine ⟨wellFormed_oneInterface ?_ ⟨by decide, trivial⟩, by decide +kernel,
    wellFormed_oneInterface ?_ ⟨⟨_, rfl, rfl⟩, trivial⟩, by decide +kernel⟩
  · simp [Block.Ok, Block.tlen, optsLength, Opt.ok_iff, IsPad]
  · simp [Block.Ok, Block.tlen, IsPad]

end Pptk.Mypcap
