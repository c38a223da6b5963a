import Pptk.Mypcap.Joker
import Pptk.Mypcap.RoundTrip

/-!
# Converting capture files

Model of `mypcap/pcaptong.c` and `mypcap/pcaptoregular.c`, which write the packets of a file of
either format to a file of one format. Opening a file for writing succeeds.

Main result: `convert_round_trip`.
-/

namespace Pptk.Mypcap

open Iphdr Lib List

/-! ## Model -/

/-- An option of `pcaptong`; `-a` with the value of `inet_addr` in host byte order. -/
inductive NgOption
  | i (ifname : List UInt8)
  | o (outifname : List UInt8)
  | a (outaddr : ℕ)

/-- What the options of `pcaptong` set. -/
structure NgOptions where
  ifname : List UInt8
  outifname : Option (List UInt8)
  outaddr : ℕ

/-- The options (pcaptong.c:37-63), or `none` for `exit(1)`. -/
def ngOptions : NgOptions → List NgOption → Option NgOptions
  | o, [] => if o.outifname = none ∧ o.outaddr ≠ 0 then none else some o
  | o, .i ifname :: opts => ngOptions { o with ifname := ifname } opts
  | o, .o outifname :: opts => ngOptions { o with outifname := some outifname } opts
  | o, .a outaddr :: opts =>
    -- `INADDR_NONE`
    if outaddr = 0xFFFFFFFF then none else ngOptions { o with outaddr := outaddr } opts

/-- Without options the interface is `eth0` (pcaptong.c:32-34). -/
def ngDefaults : NgOptions := ⟨[0x65, 0x74, 0x68, 0x30], none, 0⟩

/-- The interface of a packet (pcaptong.c:85-103). -/
def NgOptions.nameOf (o : NgOptions) (data : List UInt8) : List UInt8 :=
  if 14 + 20 ≤ data.length ∧ o.outaddr ≠ 0 ∧ hdrGet .big (slice data (14 + 12) 4) = o.outaddr then
    o.outifname.getD []
  else o.ifname

section Model

variable (env : JokerEnv) (stringHash : List UInt8 → ℕ) (now : UInt64) (ar : ℕ → InInterface)
  (clock : ℕ → UInt64)

/-- The loop of both programs; `write` also has the number of packets before. The result is `none`
for `exit(1)`, or if more steps are needed. -/
def convertLoop {σ : Type} (write : ℕ → σ → List UInt8 → UInt64 → Option σ) :
    ℕ → ℕ → JokerCtx → σ → Option σ
  | 0, _, _, _ => none
  | fuel + 1, i, ctx, out =>
    match pcapJokerCtxRead env ctx with
    | some (.packet p, ctx) => (write i out p.data p.time64).bind
      (convertLoop write fuel (i + 1) ctx)
    -- a simple packet is returned with 0
    | some (.simple _, _) => some out
    | some (.eof, _) => some out
    | _ => none

/-- A file is opened and its packets are written to `out`. -/
def convert {σ : Type} (write : ℕ → σ → List UInt8 → UInt64 → Option σ) (n : ℕ) (f : List UInt8)
    (out : σ) : Option σ :=
  match pcapJokerCtxInitFile env f true none now ar ⟨true, 0⟩ with
  | .error _ => none
  | .ok ctx => convertLoop env write n 0 ctx out

/-- `main` of `pcaptoregular` (pcaptoregular.c:22-78); `clock i` is the time when packet `i` is
written. -/
def pcapToRegular (n : ℕ) (f : List UInt8) : Option (List UInt8) :=
  convert env now ar (fun i out data time64 => pcapOutCtxWrite env.e out data time64 (clock i)) n f
    (pcapOutCtxInit env.e)

/-- `main` of `pcaptong` (pcaptong.c:22-113). -/
def pcapToNg (opts : List NgOption) (n : ℕ) (f : List UInt8) : Option (List UInt8) := do
  let o ← ngOptions ngDefaults opts
  let out ← convert env now ar
    (fun i out data time64 => outCtxWrite env.e stringHash out data time64 (clock i)
      (o.nameOf data)) n f
    (outCtxInit env.e)
  some out.f

end Model

/-! ## The loop -/

/-- Writing a packet to a classic file. -/
def Packet.toWrite (p : Packet) : PcapWrite := ⟨p.data, p.time64, 0⟩

/-- The calls of `pcapng_out_ctx_write` for the packets, from number `i` on. -/
def ngCalls (o : NgOptions) (clock : ℕ → UInt64) (i : ℕ) (ps : List Packet) : List WriteCall :=
  (ps.zipIdx i).map fun x => ⟨x.1.data, x.1.time64, clock x.2, o.nameOf x.1.data⟩

/-- A packet as it is read from the pcapng file: its original length is the captured one. -/
def NgOptions.converted (o : NgOptions) (p : Packet) : Packet :=
  ⟨p.data, p.data.length, p.data.length, p.time64, some (o.nameOf p.data)⟩

section Loop

variable {env : JokerEnv} {clock : ℕ → UInt64} {o : NgOptions} {ps : List Packet} {ctx : JokerCtx}
  {n : ℕ}

/-- The loop of both programs writes the packets one after another. -/
theorem convertLoop_eq {σ : Type} {write : ℕ → σ → List UInt8 → UInt64 → Option σ}
    (hreads : reads env ctx ps = true) (hn : ps.length < n) (i : ℕ) (out : σ) :
    convertLoop env write n i ctx out =
      (ps.zipIdx i).foldlM (fun out x => write x.2 out x.1.data x.1.time64) out := by
  induction ps generalizing n i ctx out with
  | nil =>
    obtain ⟨n, rfl⟩ := Nat.exists_eq_add_one.mpr (Nat.zero_lt_of_lt hn)
    obtain ⟨ctx', hread⟩ := reads_nil_iff.mp hreads
    rw [convertLoop, hread]
    rfl
  | cons p ps ih =>
    obtain ⟨n, rfl⟩ := Nat.exists_eq_add_one.mpr (Nat.zero_lt_of_lt hn)
    obtain ⟨ctx', hread, hreads'⟩ := reads_cons_iff.mp hreads
    rw [convertLoop, hread, zipIdx_cons, foldlM_cons]
    exact congrArg (Option.bind _) (funext fun out => ih hreads' (by simpa using hn) (i + 1) out)

theorem foldlM_regular {e : Endian} (hps : ∀ p ∈ ps, p.toWrite.Ok) (i : ℕ) (out : List UInt8) :
    (ps.zipIdx i).foldlM (fun out x => pcapOutCtxWrite e out x.1.data x.1.time64 (clock x.2)) out =
      some (out ++ (ps.map fun p => p.toWrite.record).flatMap (Record.encode e false)) := by
  induction ps generalizing i out with
  | nil => rw [map_nil, flatMap_nil, append_nil]; rfl
  | cons p ps ih =>
    obtain ⟨hp, hps⟩ := forall_mem_cons.mp hps
    -- the time is not zero, so the clock is not looked at
    have hwrite : pcapOutCtxWrite e out p.data p.time64 (clock i) =
        some (out ++ p.toWrite.record.encode e false) :=
      pcapOutCtxWrite_eq (c := ⟨p.data, p.time64, clock i⟩) ⟨hp.buf_pos, hp.buf_lt, hp.time64_pos,
        hp.time64_lt⟩ out
    rw [zipIdx_cons, foldlM_cons, hwrite]
    refine (ih hps (i + 1) _).trans ?_
    rw [map_cons, flatMap_cons, append_assoc]

theorem foldlM_ng {e : Endian} (stringHash : List UInt8 → ℕ) (i : ℕ) (out : OutCtx) :
    (ps.zipIdx i).foldlM (fun out x =>
        outCtxWrite e stringHash out x.1.data x.1.time64 (clock x.2) (o.nameOf x.1.data)) out =
      writeCalls e stringHash out (ngCalls o clock i ps) := by
  rw [writeCalls, ngCalls, foldlM_map]

theorem map_expected_ngCalls (i : ℕ) :
    (ngCalls o clock i ps).map WriteCall.expected = ps.map fun p => .packet (o.converted p) := by
  conv_rhs => rw [← zipIdx_map_fst i ps, map_map]
  rw [ngCalls, map_map]
  rfl

theorem reads_of_readCalls {ctx : InCtx} {n : ℕ}
    (h : readCalls env.e env.fresh env.binaryTime n ctx = some (ps.map ReadRet.packet ++ [.eof])) :
    reads env (.ng ctx) ps = true := by
  induction ps generalizing ctx n with
  | nil =>
    rw [reads_nil_iff, pcapJokerCtxRead]
    cases n with
    | zero => cases h
    | succ n =>
      rw [readCalls] at h
      split at h
      · cases h
      · obtain ⟨l, -, hl⟩ := Option.map_eq_some_iff.mp h
        cases hl
      · next ret ctx' _ hread =>
        obtain ⟨rfl, -⟩ := cons.inj (Option.some.inj h)
        rw [hread]
        exact ⟨.ng ctx', rfl⟩
  | cons p ps ih =>
    rw [reads_cons_iff, pcapJokerCtxRead]
    cases n with
    | zero => cases h
    | succ n =>
      rw [readCalls] at h
      split at h
      · cases h
      · next p' ctx' hread =>
        obtain ⟨l, hl, hcons⟩ := Option.map_eq_some_iff.mp h
        obtain ⟨hp, rfl⟩ := cons.inj hcons
        rw [hread, ReadRet.packet.inj hp]
        exact ⟨.ng ctx', rfl, ih hl⟩
      · obtain ⟨-, htail⟩ := cons.inj (Option.some.inj h)
        exact absurd htail.symm (by simp)

end Loop

/-! ## Round trip -/

section Main

variable (env : JokerEnv) (stringHash : List UInt8 → ℕ) (clock : ℕ → UInt64) {o : NgOptions}
  {ps : List Packet}

/-- A name that `pcapng_out_ctx_write` can write. -/
def NameOk (name : List UInt8) : Prop := 0 < name.length ∧ name.length ≤ 65535 ∧ ∀ b ∈ name, b ≠ 0

/-- The packets are written to a pcapng file, from which they are read again. -/
theorem exists_writeCalls_ngCalls (hps : ∀ p ∈ ps, p.toWrite.Ok ∧ p.data.length ≤ 2 ^ 31)
    (ho : ∀ p ∈ ps, NameOk (o.nameOf p.data)) (hfresh : ∀ j < 2, slotOffset env.fresh j = 0) :
    ∃ out, writeCalls env.e stringHash (outCtxInit env.e) (ngCalls o clock 0 ps) = some out ∧
      out.f.head? = some 0x0a ∧
      ∀ now ar buf, reads env (.ng (inCtxInit out.f now ar buf)) (ps.map o.converted) = true := by
  set calls := ngCalls o clock 0 ps with hcalls
  have hok : ∀ w ∈ calls, w.Ok := by
    intro w hw
    obtain ⟨⟨p, i⟩, hp, rfl⟩ := mem_map.mp hw
    replace hp : p ∈ ps := fst_mem_of_mem_zipIdx hp
    obtain ⟨hpok, hlen⟩ := hps p hp
    obtain ⟨h1, h2, h3⟩ := ho p hp
    have hpos : 1 ≤ p.time64.toNat := hpok.time64_pos
    have hlt : p.time64.toNat < 2 ^ 32 * 1000000 := hpok.time64_lt
    refine ⟨hpok.buf_pos, hlen, fun h0 => ?_, show p.time64.toNat < 2 ^ 63 by omega, h1, h2, h3⟩
    rw [show p.time64 = 0 from h0] at hpos
    exact absurd hpos (by decide)
  -- there are at most the two names of the options
  have hcard : (calls.map WriteCall.ifname).toFinset.card ≤ 2 := by
    refine (Finset.card_le_card (t := {o.ifname, o.outifname.getD []}) fun name hname => ?_).trans
      Finset.card_le_two
    obtain ⟨w, hw, rfl⟩ := mem_map.mp (mem_toFinset.mp hname)
    obtain ⟨⟨p, i⟩, -, rfl⟩ := mem_map.mp hw
    simp only [NgOptions.nameOf, Finset.mem_insert, Finset.mem_singleton]
    split_ifs
    · exact .inr rfl
    · exact .inl rfl
  obtain ⟨out, hwrite, hf⟩ : ∃ out, writeCalls env.e stringHash (outCtxInit env.e) calls =
    some out ∧ out.f = (outCtxInit env.e).f ++ encodeFile env.e false (callsBlocks [] calls) :=
    writeCalls_eq Table.init hok
  have hfile : out.f = encodeFile env.e false (outShb :: callsBlocks [] calls) := by
    rw [hf, outCtxInit_f, encodeFile]
    rfl
  have hblocks : ∀ b ∈ outShb :: callsBlocks [] calls, b.Ok :=
    forall_mem_cons.mpr ⟨ok_outShb, ok_callsBlocks hok⟩
  refine ⟨out, hwrite, ?_, fun now ar buf => ?_⟩
  · rw [hf, outCtxInit]
    cases env.e <;> simp [hdrSet, leBytes]
  · apply reads_of_readCalls (n := ps.length + 1)
    rw [hfile, inCtxInit, readCalls_encode hblocks, interp, blockStep_outShb, map_map]
    refine (congrArg (fun l => some (take _ l))
      ((interp_callsBlocks_iff hok nodup_nil Slots.init).mpr ?_)).trans ?_
    · rw [forall_idxOf_namesAfter (P := fun j => j < 2 ^ 32 ∧ slotOffset env.fresh j = 0)]
      exact fun j hj => ⟨by omega, hfresh j (by omega)⟩
    · rw [hcalls, map_expected_ngCalls, take_of_length_le (by simp)]
      rfl

/-- A file of either format that can be read to its end is converted to a pcapng file from which its
packets are read with the interfaces of the options, and `pcaptoregular` converts this to the file
of the packets in host byte order with microseconds. -/
theorem convert_round_trip (opts : List NgOption) (hopts : ngOptions ngDefaults opts = some o)
    (f : List UInt8) (now : UInt64) (ar : ℕ → InInterface) {ctx : JokerCtx}
    (hinit : pcapJokerCtxInitFile env f true none now ar ⟨true, 0⟩ = .ok ctx)
    (hreads : reads env ctx ps = true) (hps : ∀ p ∈ ps, p.toWrite.Ok ∧ p.data.length ≤ 2 ^ 31)
    (ho : ∀ p ∈ ps, NameOk (o.nameOf p.data)) (hfresh : ∀ j < 2, slotOffset env.fresh j = 0) {n : ℕ}
    (hn : ps.length < n) (now' : UInt64) (ar' : ℕ → InInterface) :
    ∃ g ctx', pcapToNg env stringHash now ar clock opts n f = some g ∧
      pcapJokerCtxInitFile env g true none now' ar' ⟨true, 0⟩ = .ok ctx' ∧
      reads env ctx' (ps.map o.converted) = true ∧
      pcapToRegular env now' ar' clock n g =
        some (encodePcap env.e false false (ps.map fun p => p.toWrite.record)) := by
  obtain ⟨out, hwrite, hhead, hreads'⟩ :=
    exists_writeCalls_ngCalls env stringHash clock hps ho hfresh
  have hinit' : pcapJokerCtxInitFile env out.f true none now' ar' ⟨true, 0⟩ =
      .ok (.ng (inCtxInit out.f now' ar' ⟨true, 0⟩)) := by
    rw [pcapJokerCtxInitFile, if_pos hhead]
  refine ⟨out.f, _, ?_, hinit', hreads' now' ar' _, ?_⟩
  · rw [pcapToNg, hopts]
    dsimp only [Option.bind_eq_bind, Option.bind_some]
    rw [convert, hinit]
    dsimp only
    rw [convertLoop_eq hreads hn, foldlM_ng, hwrite, Option.bind_some]
  · have hok : ∀ p ∈ ps.map o.converted, p.toWrite.Ok := by
      intro p hp
      obtain ⟨q, hq, rfl⟩ := mem_map.mp hp
      exact (hps q hq).1
    rw [pcapToRegular, convert, hinit']
    dsimp only
    rw [convertLoop_eq (hreads' now' ar' _) (by rwa [length_map]), foldlM_regular hok,
      pcapOutCtxInit_eq, encodePcap, map_map]
    rfl

end Main

/-- The header and the start of an IP packet from 10.0.0.1. -/
def sampleData : List UInt8 := replicate 26 0 ++ [10, 0, 0, 1] ++ replicate 4 0

/-- The records of a big-endian file with nanoseconds: a packet whose time rounds up to two seconds,
and the first 3 of 100 bytes of another packet. -/
def sampleRecords : List UInt8 :=
  field .little true 4 1 ++ field .little true 4 999999600 ++ field .little true 4 34 ++
    field .little true 4 34 ++ sampleData ++ field .little true 4 5 ++ field .little true 4 7000 ++
    field .little true 4 3 ++ field .little true 4 100 ++ [4, 5, 6]

/-- The packets as they are read. -/
def sampleReads :
    List Packet := [⟨sampleData, 34, 34, 2000000, none⟩, ⟨[4, 5, 6], 100, 3, 5000007, none⟩]

/-- Packets from 10.0.0.1 are of the interface `[102]`. -/
theorem convert_round_trip_sampleRecords :
    let env : JokerEnv := ⟨.little, fun _ _ => ⟨none, 0, 0, 0, 0⟩, fun ts _ => ts⟩
    ∃ g ctx', pcapToNg env length 0 (fun _ => ⟨none, 0, 0, 0, 0⟩) (fun _ => 1)
        [.o [102], .a 0x0a000001, .i [101]] 3 (encodeHeader .little true true ++ sampleRecords) =
          some g ∧
      pcapJokerCtxInitFile env g true none 0 (fun _ => ⟨none, 0, 0, 0, 0⟩) ⟨true, 0⟩ = .ok ctx' ∧
      reads env ctx' [⟨sampleData, 34, 34, 2000000, some [102]⟩,
        ⟨[4, 5, 6], 3, 3, 5000007, some [101]⟩] = true ∧
      pcapToRegular env 0 (fun _ => ⟨none, 0, 0, 0, 0⟩) (fun _ => 1) 3 g =
        some (encodePcap .little false false [⟨2, 0, sampleData⟩, ⟨5, 7, [4, 5, 6]⟩]) := by
  intro env
  have hinit : pcapJokerCtxInitFile env (encodeHeader .little true true ++ sampleRecords) true none
    0
      (fun _ => ⟨none, 0, 0, 0, 0⟩) ⟨true, 0⟩ =
        .ok (.old ⟨sampleRecords, true, true, 0⟩ ⟨true, 0⟩ none) := by
    rw [pcapJokerCtxInitFile, if_neg (by decide), pcapInCtxInitFile_encode]
    rfl
  have hps : ∀ p ∈ sampleReads, p.toWrite.Ok ∧ p.data.length ≤ 2 ^ 31 := by
    rw [sampleReads, forall_mem_cons, forall_mem_singleton]
    exact ⟨⟨⟨by decide, by decide, by decide, by decide⟩, by decide⟩,
      ⟨by decide, by decide, by decide, by decide⟩, by decide⟩
  have ho : ∀ p ∈ sampleReads,
    NameOk (NgOptions.nameOf ⟨[101], some [102], 0x0a000001⟩ p.data) := by
    rw [sampleReads, forall_mem_cons, forall_mem_singleton]
    exact ⟨⟨by decide, by decide, by decide +kernel⟩, by decide, by decide, by decide +kernel⟩
  obtain ⟨g, ctx', hg, hinit', hreads, hback⟩ := convert_round_trip env length (fun _ => 1)
    [.o [102], .a 0x0a000001, .i [101]] rfl _ 0 _ hinit (by decide +kernel) hps ho (fun _ _ => rfl)
    (show 2 < 3 by decide) 0 fun _ => ⟨none, 0, 0, 0, 0⟩
  exact ⟨g, ctx', hg, hinit', hreads, hback⟩

end Pptk.Mypcap
