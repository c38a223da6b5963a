import Pptk.Mypcap.Writer

/-!
# Classic pcap files

Model of `mypcap/mypcap.c`. As for pcapng files, a file is the list of its bytes, and file
operations and `malloc` succeed.

Main result: `pcap_round_trip`.
-/

namespace Pptk.Mypcap

open Iphdr Lib List

/-! ## Reader -/

/-- `struct pcap_in_ctx` (mypcap.h:13-18). -/
structure PcapInCtx where
  f : List UInt8
  swap : Bool
  ns : Bool
  thiszone : ℕ

/-- What a call stores for a packet: the first `snap` bytes of the buffer, `*len`, `*snap` and
`*time64`. -/
structure PcapPacket where
  data : List UInt8
  len : ℕ
  snap : ℕ
  time64 : UInt64
  deriving DecidableEq

/-- What a call returns: 0, 1 or an error. -/
inductive PcapRet
  | eof
  | packet (p : PcapPacket)
  | error (err : Errno)
  deriving DecidableEq

section Reader

variable (e : Endian)

/-- Microseconds from the fraction of the second in a record (mypcap.c:50-54). -/
def fracUsec (ns : Bool) (frac : ℕ) : ℕ := if ns then (frac + 500) % 2 ^ 32 / 1000 else frac

/-- `pcap_in_ctx_read` (mypcap.c:24-101). A header that cannot be read is the end of the file. -/
def pcapInCtxRead (ctx : PcapInCtx) (buf : CallerBuf) : PcapRet × PcapInCtx × CallerBuf :=
  match fread 16 ctx.f with
  | .error _ => (.eof, { ctx with f := [] }, buf)
  | .ok (hdr, f) =>
    let sec := (getField e ctx.swap hdr 0 4 + ctx.thiszone) % 2 ^ 32
    let usec := fracUsec ctx.ns (getField e ctx.swap hdr 4 4)
    let inclLen := getField e ctx.swap hdr 8 4
    let len := getField e ctx.swap hdr 12 4
    let buf := buf.grow inclLen
    match fread inclLen f with
    | .error err => (.error err, { ctx with f := f }, buf)
    | .ok (data, f) =>
      (.packet ⟨data, len, inclLen, UInt64.ofNat (sec * 1000 * 1000 + usec)⟩, { ctx with
        f := f }, buf)

/-- What at most `n` calls return, up to the first that does not return 1. -/
def pcapReadCalls : ℕ → PcapInCtx → CallerBuf → List PcapRet
  | 0, _, _ => []
  | n + 1, ctx, buf =>
    match pcapInCtxRead e ctx buf with
    | (.packet p, ctx, buf) => .packet p :: pcapReadCalls n ctx buf
    | (ret, _, _) => [ret]

/-- The byte order and the kind of fractions that the magic number says (mypcap.c:173-197). -/
def magicKind (magic : ℕ) : Except Errno (Bool × Bool) :=
  if magic = 0xa1b2c3d4 then .ok (false, false)
  else if magic = 0xd4c3b2a1 then .ok (true, false)
  else if magic = 0xa1b23c4d then .ok (false, true)
  else if magic = 0x4d3cb2a1 then .ok (true, true)
  else .error .einval

/-- `pcap_in_ctx_init_file` (mypcap.c:158-237). The time zone is tested before it is swapped. -/
def pcapInCtxInitFile (f : List UInt8) (enforceEthernet : Bool) : Except Errno PcapInCtx := do
  let (hdr, f) ← fread 24 f
  let (swap, ns) ← magicKind (hdrGet e (slice hdr 0 4))
  let versionMajor := getField e swap hdr 4 2
  let versionMinor := getField e swap hdr 6 2
  if versionMajor ≠ 2 ∨ versionMinor ≠ 4 then .error .einval else
  if hdrGet e (slice hdr 8 4) > 0 then .error .einval else
  let thiszone := getField e swap hdr 8 4
  let network := getField e swap hdr 20 4
  if enforceEthernet = true ∧ network ≠ 1 then .error .einval else
  .ok ⟨f, swap, ns, thiszone⟩

end Reader

/-! ## Writer -/

section Writer

variable (e : Endian)

/-- `pcap_out_ctx_init` (mypcap.c:103-126): the bytes written. -/
def pcapOutCtxInit : List UInt8 :=
  hdrSet e 4 0xa1b2c3d4 ++ hdrSet e 2 2 ++ hdrSet e 2 4 ++ hdrSet e 4 0 ++ hdrSet e 4 0 ++
    hdrSet e 4 0xFFFFFFFF ++
    hdrSet e 4 1

/-- `pcap_out_ctx_write` (mypcap.c:128-156), with the bytes written so far; `now` is what
`gettime64` returns. -/
def pcapOutCtxWrite (f buf : List UInt8) (time64 now : UInt64) : Option (List UInt8) := do
  let time64 := if time64 = 0 then now else time64
  let sec := time64.toNat / 1000 / 1000 % 2 ^ 32
  let usec := time64.toNat % (1000 * 1000)
  let size := buf.length
  let f ← fwrite (hdrSet e 4 sec ++ hdrSet e 4 usec ++ hdrSet e 4 size ++ hdrSet e 4 size) f
  fwrite buf f

end Writer

/-! ## Records -/

/-- A record: the time in seconds and the fraction of the second, and the bytes of the packet. -/
structure Record where
  sec : ℕ
  frac : ℕ
  data : List UInt8

/-- The fields have values that fit, and the packet is not empty. -/
structure Record.Ok (r : Record) : Prop where
  sec : r.sec < 256 ^ 4
  frac : r.frac < 256 ^ 4
  length : r.data.length < 256 ^ 4
  length_ne : r.data.length ≠ 0

section Encode

variable (e : Endian) (swap ns : Bool)

/-- The header of a file in the given byte order and with micro- or nanoseconds. -/
def encodeHeader : List UInt8 :=
  field e swap 4 (if ns then 0xa1b23c4d else 0xa1b2c3d4) ++
    (field e swap 2 2 ++ (field e swap 2 4 ++ (field e swap 4 0 ++
    (field e swap 4 0 ++ (field e swap 4 0xFFFFFFFF ++ field e swap 4 1)))))

/-- The bytes of a record. -/
def Record.encode (r : Record) : List UInt8 :=
  field e swap 4 r.sec ++
    (field e swap 4 r.frac ++ (field e swap 4 r.data.length ++ field e swap 4 r.data.length)) ++
    r.data

/-- The bytes of a file. -/
def encodePcap (rs : List Record) :
    List UInt8 := encodeHeader e swap ns ++ rs.flatMap (Record.encode e swap)

end Encode

/-- What reading a record is to return. -/
def Record.read (ns : Bool) (r : Record) : PcapPacket :=
  ⟨r.data, r.data.length, r.data.length, UInt64.ofNat (r.sec * 1000 * 1000 + fracUsec ns r.frac)⟩

section Read

variable {e : Endian} {swap ns : Bool}

/-- A record is read in the byte order and with the fractions of the second that its file has. -/
theorem pcapInCtxRead_encode {r : Record} (hr : r.Ok) (rest : List UInt8) (buf : CallerBuf) :
    pcapInCtxRead e ⟨r.encode e swap ++ rest, swap, ns, 0⟩ buf =
      (.packet (r.read ns), ⟨rest, swap, ns, 0⟩, buf.grow r.data.length) := by
  obtain ⟨hsec, hfrac, hlen, hlen_ne⟩ := hr
  have hzone : (r.sec + 0) % 2 ^ 32 = r.sec := by omega
  unfold pcapInCtxRead
  dsimp only
  rw [Record.encode, append_assoc, fread_append (by simp) (by decide)]
  dsimp only
  generalize hhdr : field e swap 4 r.sec ++
    (field e swap 4 r.frac ++ (field e swap 4 r.data.length ++
    field e swap 4 r.data.length)) = hdr
  have hsec_eq : getField e swap hdr 0 4 = r.sec := by
    rw [← hhdr, getField_first hsec]
  have hfrac_eq : getField e swap hdr 4 4 = r.frac := by
    rw [← hhdr, getField_skip (by decide), getField_first hfrac]
  have hincl_eq : getField e swap hdr 8 4 = r.data.length := by
    rw [← hhdr, getField_skip (by decide), getField_skip (by decide), getField_first hlen]
  have hlen_eq : getField e swap hdr 12 4 = r.data.length := by
    rw [← hhdr, getField_skip (by decide), getField_skip (by decide), getField_skip (by decide),
      getField_only hlen]
  rw [hsec_eq, hfrac_eq, hincl_eq, hlen_eq, hzone, fread_append rfl hlen_ne, Record.read]

/-- The calls return the packets of a file. -/
theorem pcapReadCalls_encode {rs : List Record} (hrs : ∀ r ∈ rs, r.Ok) (buf : CallerBuf) (n : ℕ) :
    pcapReadCalls e n ⟨rs.flatMap (Record.encode e swap), swap, ns, 0⟩ buf =
      (rs.map (fun r : Record => PcapRet.packet (r.read ns)) ++ [PcapRet.eof]).take n := by
  induction n generalizing rs buf with
  | zero => rfl
  | succ n ih =>
    cases rs with
    | nil =>
      rw [map_nil, nil_append, take_succ_cons, take_nil]
      rfl
    | cons r rs =>
      rw [forall_mem_cons] at hrs
      rw [pcapReadCalls, flatMap_cons, pcapInCtxRead_encode hrs.1]
      dsimp only
      rw [ih hrs.2]
      rfl

theorem magicKind_encode :
    magicKind (hdrGet e (field e swap 4 (if ns then 0xa1b23c4d else 0xa1b2c3d4))) =
      .ok (swap, ns) := by
  cases e <;> cases swap <;> cases ns <;> decide

theorem pcapInCtxInitFile_encode (rest : List UInt8) (enforceEthernet : Bool) :
    pcapInCtxInitFile e (encodeHeader e swap ns ++ rest) enforceEthernet = .ok ⟨rest, swap, ns,
      0⟩ := by
  unfold pcapInCtxInitFile
  rw [fread_append (by simp [encodeHeader]) (by decide), ok_bind]
  dsimp only
  generalize hhdr : encodeHeader e swap ns = hdr
  have hmagic : slice hdr 0 4 = field e swap 4 (if ns then 0xa1b23c4d else 0xa1b2c3d4) := by
    rw [← hhdr, encodeHeader, slice_append_left length_field]
  have hmajor : getField e swap hdr 4 2 = 2 := by
    rw [← hhdr, encodeHeader, getField_skip (by decide), getField_first (by decide)]
  have hminor : getField e swap hdr 6 2 = 4 := by
    rw [← hhdr, encodeHeader, getField_skip (by decide), getField_skip (by decide),
      getField_first (by decide)]
  have hzone : slice hdr 8 4 = field e swap 4 0 := by
    rw [← hhdr, encodeHeader, slice_append_right length_field (by decide),
      slice_append_right length_field (by decide), slice_append_right length_field (by decide),
      slice_append_left length_field]
  have hzone_eq : getField e swap hdr 8 4 = 0 := getField_field hzone (by decide)
  have hzone_pos : ¬hdrGet e (field e swap 4 0) > 0 := by
    cases e <;> cases swap <;> decide
  have hnetwork : getField e swap hdr 20 4 = 1 := by
    rw [← hhdr, encodeHeader, getField_skip (by decide), getField_skip (by decide),
      getField_skip (by decide),
      getField_skip (by decide), getField_skip (by decide), getField_skip (by decide),
      getField_only (by decide)]
  rw [hmagic, magicKind_encode, ok_bind]
  dsimp only
  rw [hmajor, hminor, hzone, hzone_eq, hnetwork, if_neg (by decide), if_neg hzone_pos,
    if_neg (by simp)]

end Read

/-! ## Round trip -/

/-- A call of `pcap_out_ctx_write`; `now` is the time at which it is made. -/
structure PcapWrite where
  buf : List UInt8
  time64 : UInt64
  now : UInt64

/-- A packet of 1 to `2^32 - 1` bytes, and a time from a microsecond to below `2^32` seconds. -/
structure PcapWrite.Ok (c : PcapWrite) : Prop where
  buf_pos : 1 ≤ c.buf.length
  buf_lt : c.buf.length < 2 ^ 32
  time64_pos : 1 ≤ c.time64.toNat
  time64_lt : c.time64.toNat < 2 ^ 32 * 1000000

namespace PcapWrite

/-- The time in full seconds. -/
def sec (c : PcapWrite) : ℕ := c.time64.toNat / 1000000

/-- The microseconds behind the full seconds. -/
def usec (c : PcapWrite) : ℕ := c.time64.toNat % 1000000

/-- The packet as it is to be read. -/
def packet (c : PcapWrite) : PcapPacket := ⟨c.buf, c.buf.length, c.buf.length, c.time64⟩

/-- The record that is written. -/
def record (c : PcapWrite) : Record := ⟨c.sec, c.usec, c.buf⟩

/-- A record of the packet in a variant of the file: the fraction is the number of microseconds, or
a number of nanoseconds that rounds to it. -/
structure IsRecord (ns : Bool) (c : PcapWrite) (r : Record) : Prop where
  sec : r.sec = c.sec
  data : r.data = c.buf
  usec : ns = false → r.frac = c.usec
  nsec : ns = true → 1000 * c.usec ≤ r.frac + 500 ∧ r.frac + 500 < 1000 * (c.usec + 1)

theorem isRecord_record (c : PcapWrite) : c.IsRecord false c.record :=
  ⟨rfl, rfl, fun _ => rfl, fun h => Bool.noConfusion h⟩

variable {c : PcapWrite} {ns : Bool} {r : Record}

theorem IsRecord.ok (h : c.IsRecord ns r) (hc : c.Ok) : r.Ok := by
  obtain ⟨hsec, hdata, husec, hnsec⟩ := h
  obtain ⟨hpos, hlt, -, htime⟩ := hc
  have husec_lt : c.usec < 1000000 := Nat.mod_lt _ (by decide)
  have hsec_lt : c.sec < 2 ^ 32 := Nat.div_lt_of_lt_mul (by rwa [Nat.mul_comm])
  have hfrac : r.frac < 256 ^ 4 := by
    cases ns with
    | false =>
      rw [husec rfl]
      omega
    | true =>
      have := hnsec rfl
      omega
  refine ⟨?_, hfrac, ?_, ?_⟩
  · rw [hsec]
    omega
  · rw [hdata]
    omega
  · rw [hdata]
    omega

theorem IsRecord.fracUsec_eq (h : c.IsRecord ns r) : fracUsec ns r.frac = c.usec := by
  have husec_lt : c.usec < 1000000 := Nat.mod_lt _ (by decide)
  cases ns with
  | false => exact h.usec rfl
  | true =>
    obtain ⟨hlo, hhi⟩ := h.nsec rfl
    have hfits : r.frac + 500 < 2 ^ 32 := by omega
    rw [fracUsec, if_pos rfl, Nat.mod_eq_of_lt hfits]
    omega

theorem IsRecord.read_eq (h : c.IsRecord ns r) : r.read ns = c.packet := by
  have htime : c.sec * 1000 * 1000 + c.usec = c.time64.toNat := by
    unfold PcapWrite.sec PcapWrite.usec
    omega
  rw [Record.read, h.fracUsec_eq, h.sec, h.data, htime, UInt64.ofNat_toNat, packet]

end PcapWrite

/-- The calls, one after another. -/
def pcapWriteCalls (e : Endian) (f : List UInt8) (calls : List PcapWrite) : Option (List UInt8) :=
  calls.foldlM (fun f c => pcapOutCtxWrite e f c.buf c.time64 c.now) f

section RoundTrip

variable {e : Endian}

theorem pcapOutCtxInit_eq : pcapOutCtxInit e = encodeHeader e false false := by
  simp only [pcapOutCtxInit, encodeHeader, field, append_assoc, Bool.false_eq_true, if_false]

theorem pcapOutCtxWrite_eq {c : PcapWrite} (hc : c.Ok) (f : List UInt8) :
    pcapOutCtxWrite e f c.buf c.time64 c.now = some (f ++ c.record.encode e false) := by
  obtain ⟨hpos, -, htime, hlt⟩ := hc
  have hne : c.time64 ≠ 0 := by
    intro h
    rw [h] at htime
    exact absurd htime (by decide)
  have hsec : c.time64.toNat / 1000 / 1000 % 2 ^ 32 = c.sec := by
    unfold PcapWrite.sec
    omega
  unfold pcapOutCtxWrite
  rw [if_neg hne]
  dsimp only
  rw [hsec, fwrite_eq (by simp), some_bind, fwrite_eq (by omega)]
  simp only [Record.encode, PcapWrite.record, PcapWrite.usec, field, Bool.false_eq_true, if_false,
    append_assoc]

theorem pcapWriteCalls_eq {cs : List PcapWrite} (hcs : ∀ c ∈ cs, c.Ok) (f : List UInt8) :
    pcapWriteCalls e f cs =
      some (f ++ (cs.map PcapWrite.record).flatMap (Record.encode e false)) := by
  induction cs generalizing f with
  | nil => rw [map_nil, flatMap_nil, append_nil]; rfl
  | cons c cs ih =>
    rw [forall_mem_cons] at hcs
    rw [pcapWriteCalls, foldlM_cons, pcapOutCtxWrite_eq hcs.1, some_bind, ← pcapWriteCalls,
      ih hcs.2, map_cons, flatMap_cons, append_assoc]

/-- The packets are what is read from the file. -/
def ReadsAs (e : Endian) (f : List UInt8) (ps : List PcapPacket) : Prop :=
  ∀ enforceEthernet buf, ∃ ctx, pcapInCtxInitFile e f enforceEthernet = .ok ctx ∧
    ∀ n, pcapReadCalls e n ctx buf = (ps.map PcapRet.packet ++ [PcapRet.eof]).take n

theorem readsAs_encodePcap {cs : List PcapWrite} (hcs : ∀ c ∈ cs, c.Ok) {swap ns : Bool}
    {rs : List Record} (hrs : List.Forall₂ (PcapWrite.IsRecord ns) cs rs) :
    ReadsAs e (encodePcap e swap ns rs) (cs.map PcapWrite.packet) := by
  have hok : ∀ r ∈ rs, r.Ok := by
    induction hrs with
    | nil => exact fun r hr => absurd hr not_mem_nil
    | cons hr _ ih =>
      rw [forall_mem_cons] at hcs ⊢
      exact ⟨hr.ok hcs.1, ih hcs.2⟩
  have hread : rs.map (fun r : Record => PcapRet.packet (r.read ns)) =
      (cs.map PcapWrite.packet).map PcapRet.packet := by
    clear hcs hok
    induction hrs with
    | nil => rfl
    | cons hr _ ih => rw [map_cons, map_cons, map_cons, hr.read_eq, ih]
  intro enforceEthernet buf
  refine ⟨⟨rs.flatMap (Record.encode e swap), swap, ns, 0⟩, ?_, ?_⟩
  · rw [encodePcap, pcapInCtxInitFile_encode]
  · intro n
    rw [pcapReadCalls_encode hok, hread]

/-- What is written is read, and so are the byte-swapped and the nanosecond variants of the file. -/
theorem pcap_round_trip (e : Endian) (cs : List PcapWrite) (hcs : ∀ c ∈ cs, c.Ok) :
    (∃ f, pcapWriteCalls e (pcapOutCtxInit e) cs = some f ∧
      f = encodePcap e false false (cs.map PcapWrite.record) ∧
      ReadsAs e f (cs.map PcapWrite.packet)) ∧
    ∀ swap ns rs, List.Forall₂ (PcapWrite.IsRecord ns) cs rs →
      ReadsAs e (encodePcap e swap ns rs) (cs.map PcapWrite.packet) := by
  have hrecords : List.Forall₂ (PcapWrite.IsRecord false) cs (cs.map PcapWrite.record) := by
    rw [forall₂_map_right_iff, forall₂_same]
    exact fun c _ => c.isRecord_record
  refine ⟨⟨encodePcap e false false (cs.map PcapWrite.record), ?_, rfl,
    readsAs_encodePcap hcs hrecords⟩, ?_⟩
  · rw [pcapWriteCalls_eq hcs, pcapOutCtxInit_eq, encodePcap]
  · intro swap ns rs hrs
    exact readsAs_encodePcap hcs hrs

/-- Two packets, and the swapped file with the time of the first in nanoseconds rounded up and of
the second rounded down. -/
theorem pcap_round_trip_two :
    (∀ c ∈ [⟨[1, 2, 3], 1999999, 0⟩, ⟨[4], 1, 0⟩], PcapWrite.Ok c) ∧
    (∃ f, pcapWriteCalls .little (pcapOutCtxInit .little) [⟨[1, 2, 3], 1999999, 0⟩, ⟨[4], 1, 0⟩] =
      some f ∧
      ReadsAs .little f [⟨[1, 2, 3], 3, 3, 1999999⟩, ⟨[4], 1, 1, 1⟩]) ∧
    ReadsAs .little (encodePcap .little true true [⟨1, 999998500, [1, 2, 3]⟩, ⟨0, 1499, [4]⟩])
      [⟨[1, 2, 3], 3, 3, 1999999⟩, ⟨[4], 1, 1, 1⟩] := by
  have hok : ∀ c ∈ [⟨[1, 2, 3], 1999999, 0⟩, ⟨[4], 1, 0⟩], PcapWrite.Ok c := by
    rw [forall_mem_cons, forall_mem_singleton]
    exact ⟨⟨by decide, by decide, by decide, by decide⟩,
      ⟨by decide, by decide, by decide, by decide⟩⟩
  obtain ⟨⟨f, hf, -, hread⟩, hvariants⟩ := pcap_round_trip .little _ hok
  refine ⟨hok, ⟨f, hf, hread⟩, hvariants true true _ ?_⟩
  exact .cons ⟨by decide, rfl, by decide, by decide⟩
    (.cons ⟨by decide, rfl, by decide, by decide⟩ .nil)

end RoundTrip

end Pptk.Mypcap
