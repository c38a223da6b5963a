import Pptk.Iphdr.Hdr
import Pptk.Lib.Words

/-!
# pcapng files: reader and writer

Model of `mypcap/mypcapng.c`. A file is the list of its bytes, and the file of a reading context is
the list of the bytes that are still to be read. File operations and `malloc` succeed.

* `e` is the byte order of the host, in which the fields of a section are unless its byte-order
  magic says otherwise.
* `fresh n` is what is in the memory of the array of interfaces when it is allocated for the `n`-th
  time.
* `binaryTime ts n` is `ts` in units of `2^-n` seconds as microseconds, which the source computes
  with a `double` (mypcap/mypcapng.c:706-715).
* Times are 64-bit numbers. Their signed sum (mypcap/mypcapng.c:716, 738) is taken to wrap around.
* A name is a C string: the bytes before the first zero byte.
-/

namespace Pptk.Mypcap

open Iphdr Lib

/-! ## Fields -/

/-- `hdr_get16h`, `hdr_get32h` and `hdr_get64h` (hdr.h:7-26). -/
def hdrGet (e : Endian) (bs : List UInt8) : ℕ :=
  match e with
  | .little => leNat bs
  | .big => leNat bs.reverse

/-- `hdr_set16h`, `hdr_set32h` and `hdr_set64h` (hdr.h:35-48), for `k` bytes. -/
def hdrSet (e : Endian) (k v : ℕ) : List UInt8 :=
  match e with
  | .little => leBytes k v
  | .big => (leBytes k v).reverse

/-- A field of `k` bytes at an offset of a header, after `byteswap16`, `byteswap32` or `byteswap64`
if the section is swapped. -/
def getField (e : Endian) (swap : Bool) (hdr : List UInt8) (off k : ℕ) : ℕ :=
  if swap then byteswap k (hdrGet e (slice hdr off k)) else hdrGet e (slice hdr off k)

/-- A length rounded up to a multiple of 4, as a `uint32_t`. -/
def padded (n : ℕ) : ℕ := (n + 3) % 2 ^ 32 / 4 * 4

/-! ## Files -/

/-- The error codes. -/
inductive Errno
  | einval
  | enotsup
  deriving DecidableEq

/-- `fread(buf, n, 1, f)`, which reads nothing and fails if `n` is 0; the callers return `-EINVAL`
if it fails. -/
def fread (n : ℕ) (f : List UInt8) : Except Errno (List UInt8 × List UInt8) :=
  if n = 0 ∨ f.length < n then .error .einval else .ok (f.take n, f.drop n)

/-- The loop of `fskip` (mypcapng.c:18-34). -/
def fskipLoop (sz : ℕ) : ℕ → ℕ → List UInt8 → ℕ × List UInt8
  | 0, skipped, f => (skipped, f)
  | fuel + 1, skipped, f =>
    if skipped < sz then
      let remaining := sz - skipped
      let ret := min (if remaining > 512 then 512 else remaining) f.length
      if ret = 0 then (skipped, f) else fskipLoop sz fuel (skipped + ret) (f.drop ret)
    else (skipped, f)

/-- `fskip` (mypcapng.c:14-36). There are at most `sz` steps. The callers return `-EINVAL` if less
was skipped. -/
def fskip (sz : ℕ) (f : List UInt8) : Except Errno (List UInt8) :=
  if (fskipLoop sz sz 0 f).1 = sz then .ok (fskipLoop sz sz 0 f).2 else .error .einval

/-! ## Reading context -/

/-- `struct pcapng_in_interface` (mypcapng.h:21-27). -/
structure InInterface where
  name : Option (List UInt8)
  snaplen : ℕ
  linktype : ℕ
  tsresol : UInt8
  tsoffset : UInt64

/-- The array of interfaces (`DYNARR`, dynarr.h:9-14), how many arrays have been allocated for it,
and how often the names in it have been freed. -/
structure InInterfaces where
  ar : ℕ → InInterface
  capacity : ℕ
  size : ℕ
  allocs : ℕ
  frees : ℕ

/-- `DYNARR_PUSH_BACK_RETPTR` with `dynarr_realloc_impl` (dynarr.h:56-113, dynarr.c:7-24): the new
element is what is in the memory. -/
def InInterfaces.pushBack (fresh : ℕ → ℕ → InInterface) (a : InInterfaces) : InInterfaces :=
  if a.size + 1 ≤ a.capacity then { a with size := a.size + 1 }
  else
    { ar := fun i => if i < a.size then a.ar i else fresh a.allocs i,
      capacity := if a.size + 1 < a.capacity * 2 + 1 then a.capacity * 2 + 1 else a.size + 1,
      size := a.size + 1, allocs := a.allocs + 1, frees := a.frees }

/-- The last element is replaced. -/
def InInterfaces.setLast (a : InInterfaces) (intf : InInterface) : InInterfaces :=
  { a with ar := Function.update a.ar (a.size - 1) intf }

/-- `free_interfaces` (mypcapng.c:63-74). -/
def InInterfaces.freeInterfaces (a : InInterfaces) : InInterfaces :=
  { a with
    ar := fun i => if i < a.size then { a.ar i with name := none } else a.ar i,
    size := 0, frees := a.frees + 1 }

/-- The buffer of the caller: `*buf == NULL` and `*bufcapacity`. -/
structure CallerBuf where
  null : Bool
  capacity : ℕ

/-- What a reading context holds, and the buffer of the caller. -/
structure InState where
  lasttime : UInt64
  interfaces : InInterfaces
  buf : CallerBuf

/-- `struct pcapng_in_ctx` (mypcapng.h:35-40). -/
structure InCtx where
  f : List UInt8
  swap : Bool
  st : InState

/-- What a call stores for a packet: the first `snap` bytes of the buffer, `*len`, `*snap`,
`*time64` and `*ifname`. -/
structure Packet where
  data : List UInt8
  len : ℕ
  snap : ℕ
  time64 : UInt64
  ifname : Option (List UInt8)
  deriving DecidableEq

/-- What a call returns: 0 without a packet, 0 with a simple packet, 1, or an error. -/
inductive ReadRet
  | eof
  | simple (p : Packet)
  | packet (p : Packet)
  | error (err : Errno)
  deriving DecidableEq

/-! ## Reader -/

section Reader

variable (e : Endian) (fresh : ℕ → ℕ → InInterface) (binaryTime : UInt64 → ℕ → UInt64)

/-- The byte order that the byte-order magic says (mypcapng.c:258-269). -/
def bomSwap (bom : ℕ) : Except Errno Bool :=
  if bom = 0x1A2B3C4D then .ok false else if bom = 0x4D3C2B1A then .ok true else .error .einval

/-- `pcapng_in_ctx_read_shb` (mypcapng.c:245-306), with the file behind the block type. -/
def readShb (ctx : InCtx) : Except Errno InCtx := do
  let st := { ctx.st with interfaces := ctx.st.interfaces.freeInterfaces }
  let (hdr, f) ← fread 20 ctx.f
  let bom := hdrGet e (slice hdr 4 4)
  let swap ← bomSwap bom
  let tlen := getField e swap hdr 0 4
  if tlen < 28 ∨ tlen % 4 ≠ 0 then .error .einval else
  let major := getField e swap hdr 8 2
  if major ≠ 1 then .error .enotsup else
  let f ← fskip (tlen - 28) f
  let (hdr, f) ← fread 4 f
  let tlen2 := getField e swap hdr 0 4
  if tlen2 ≠ tlen then .error .einval else
  .ok ⟨f, swap, st⟩

/-- The loop over the options of an interface (mypcapng.c:346-426), with `remaining` bytes to go. -/
def readOpts (swap : Bool) :
    ℕ → ℕ → InInterface → List UInt8 → Except Errno (InInterface × List UInt8)
  | 0, _, intf, f => .ok (intf, f)
  | fuel + 1, remaining, intf, f =>
    if remaining < 4 then .ok (intf, f)
    else do
      let (hdr, f) ← fread 4 f
      let optcode := getField e swap hdr 0 2
      let optlen := getField e swap hdr 2 2
      let remaining := remaining - 4
      let thisoptlen := padded optlen
      if thisoptlen > remaining then .error .einval else
      let remaining := remaining - thisoptlen
      if optcode = 9 then
        if optlen ≠ 1 then .error .einval else do
        let (hdr, f) ← fread 4 f
        readOpts swap fuel remaining { intf with tsresol := hdr.headD 0 } f
      else if optcode = 14 then
        if optlen ≠ 8 then .error .einval else do
        let (hdr, f) ← fread 8 f
        readOpts swap fuel remaining { intf with
          tsoffset := UInt64.ofNat (getField e swap hdr 0 8) } f
      else if optcode = 2 then
        if intf.name ≠ none then .error .einval else do
        let (buf, f) ← fread thisoptlen f
        readOpts swap fuel remaining { intf with
          name := some ((buf.take optlen).takeWhile (· ≠ 0)) } f
      else do
        let f ← fskip thisoptlen f
        readOpts swap fuel remaining intf f

/-- `pcapng_in_ctx_read_idb` (mypcapng.c:308-441), with the file behind the block type. The new
interface keeps the `tsoffset` that is in the memory. -/
def readIdb (ctx : InCtx) : Except Errno InCtx := do
  let (hdr, f) ← fread 12 ctx.f
  let tlen := getField e ctx.swap hdr 0 4
  if tlen < 20 ∨ tlen % 4 ≠ 0 then .error .einval else
  let interfaces := ctx.st.interfaces.pushBack fresh
  let intf : InInterface :=
    { interfaces.ar (interfaces.size - 1) with
      linktype := getField e ctx.swap hdr 4 2, snaplen := getField e ctx.swap hdr 8 4, name :=
        none, tsresol := 6 }
  let remainingOpts := tlen - 20
  let (intf, f) ← readOpts e ctx.swap remainingOpts remainingOpts intf f
  let (hdr, f) ← fread 4 f
  let tlen2 := getField e ctx.swap hdr 0 4
  if tlen2 ≠ tlen then .error .einval else
  .ok ⟨f, ctx.swap, { ctx.st with interfaces := interfaces.setLast intf }⟩

/-- A block of another type (mypcapng.c:494-523), with the file behind the block type. -/
def readOther (ctx : InCtx) : Except Errno InCtx := do
  let (hdr, f) ← fread 4 ctx.f
  let tlen := getField e ctx.swap hdr 0 4
  if tlen < 12 then .error .einval else
  let f ← fskip (tlen - 12) f
  let (hdr, f) ← fread 4 f
  let tlen2 := getField e ctx.swap hdr 0 4
  if tlen2 ≠ tlen then .error .einval else
  .ok { ctx with f := f }

/-- The buffer has room for a packet (mypcapng.c:568-587, 654-673). -/
def CallerBuf.grow (buf : CallerBuf) (capturedLen : ℕ) : CallerBuf :=
  if capturedLen > buf.capacity ∨ buf.null = true then
    let newcapacity := 2 * buf.capacity % 2 ^ 64
    let newcapacity := if newcapacity < capturedLen then capturedLen else newcapacity
    ⟨false, if newcapacity < 1514 then 1514 else newcapacity⟩
  else buf

/-- A simple packet block (mypcapng.c:533-612), with the file behind the block type. The length of
the packet is not swapped, and the total length behind the packet is not read. -/
def readSpb (ctx : InCtx) : Except Errno (Packet × InCtx) := do
  let (hdr, f) ← fread 8 ctx.f
  let tlen := getField e ctx.swap hdr 0 4
  if tlen < 16 then .error .einval else
  if 0 ≥ ctx.st.interfaces.size then .error .einval else
  let intf := ctx.st.interfaces.ar 0
  let origLen := hdrGet e (slice hdr 4 4)
  let capturedLen := if origLen > intf.snaplen then intf.snaplen else origLen
  let packetDataLen := padded capturedLen
  if packetDataLen ≠ tlen - 16 then .error .einval else
  let padding := (packetDataLen + 2 ^ 32 - capturedLen) % 2 ^ 32
  let buf := ctx.st.buf.grow capturedLen
  let (data, f) ← fread capturedLen f
  let f ← fskip padding f
  .ok (⟨data, origLen, capturedLen, ctx.st.lasttime, intf.name⟩, { ctx with
    f := f, st := { ctx.st with buf := buf } })

/-- `ts /= 10`, `n` times. -/
def divTen : ℕ → UInt64 → UInt64
  | 0, ts => ts
  | n + 1, ts => divTen n (ts / 10)

/-- `ts *= 10`, `n` times. -/
def mulTen : ℕ → UInt64 → UInt64
  | 0, ts => ts
  | n + 1, ts => mulTen n (ts * 10)

/-- `time64val` (mypcapng.c:702-739). -/
def InInterface.time64val (intf : InInterface) (ts : UInt64) : UInt64 :=
  if intf.tsresol &&& 0x80 ≠ 0 then binaryTime ts (intf.tsresol &&& 0x7F).toNat + intf.tsoffset
  else if intf.tsresol > 6 then divTen (intf.tsresol.toNat - 6) ts + intf.tsoffset
  else if intf.tsresol < 6 then mulTen (6 - intf.tsresol.toNat) ts + intf.tsoffset
  else ts + intf.tsoffset

/-- An enhanced packet block (mypcapng.c:614-758), with the file behind the block type. -/
def readEpb (ctx : InCtx) : Except Errno (Packet × InCtx) := do
  let (hdr, f) ← fread 24 ctx.f
  let tlen := getField e ctx.swap hdr 0 4
  if tlen < 32 then .error .einval else
  let ifid := getField e ctx.swap hdr 4 4
  if ifid ≥ ctx.st.interfaces.size then .error .einval else
  let tshi := getField e ctx.swap hdr 8 4
  let tslo := getField e ctx.swap hdr 12 4
  let capturedLen := getField e ctx.swap hdr 16 4
  let origLen := getField e ctx.swap hdr 20 4
  let ts := UInt64.ofNat (tshi * 2 ^ 32 + tslo)
  let packetDataLen := padded capturedLen
  if packetDataLen < tlen - 32 then .error .einval else
  let padding := (packetDataLen + 2 ^ 32 - capturedLen) % 2 ^ 32
  let buf := ctx.st.buf.grow capturedLen
  let (data, f) ← fread capturedLen f
  let f ← fskip padding f
  let toskip := packetDataLen - (tlen - 32)
  let f ← fskip toskip f
  let (hdr, f) ← fread 4 f
  let tlen2 := getField e ctx.swap hdr 0 4
  if tlen2 ≠ tlen then .error .einval else
  let intf := ctx.st.interfaces.ar ifid
  let time64val := intf.time64val binaryTime ts
  .ok (⟨data, origLen, capturedLen, time64val, intf.name⟩,
    { ctx with f := f, st := { ctx.st with lasttime := time64val, buf := buf } })

/-- The return value and the context after a packet block. -/
def packetRet (ctx : InCtx) (ret : Packet → ReadRet) :
    Except Errno (Packet × InCtx) → ReadRet × InCtx
  | .ok (p, ctx') => (ret p, ctx')
  | .error err => (.error err, ctx)

/-- The loop of `pcapng_in_ctx_read` (mypcapng.c:459-530), and the packet block at its end. -/
def readLoop : ℕ → InCtx → Option (ReadRet × InCtx)
  | 0, _ => none
  | fuel + 1, ctx =>
    match fread 4 ctx.f with
    | .error _ => some (.eof, { ctx with f := [] })
    | .ok (hdr, f) =>
      let btype := getField e ctx.swap hdr 0 4
      if btype = 0x0A0D0D0A then
        match readShb e { ctx with f := f } with
        | .error err => some (.error err, ctx)
        | .ok ctx => readLoop fuel ctx
      else if btype = 0x00000001 then
        match readIdb e fresh { ctx with f := f } with
        | .error err => some (.error err, ctx)
        | .ok ctx => readLoop fuel ctx
      else if btype ≠ 0x00000006 ∧ btype ≠ 0x00000003 then
        match readOther e { ctx with f := f } with
        | .error err => some (.error err, ctx)
        | .ok ctx => readLoop fuel ctx
      else if btype = 0x00000003 then
        some (packetRet ctx .simple (readSpb e { ctx with f := f }))
      else
        some (packetRet ctx .packet (readEpb e binaryTime { ctx with f := f }))

/-- `pcapng_in_ctx_read` (mypcapng.c:445-759). Every step of its loop reads at least 4 bytes. -/
def inCtxRead (ctx : InCtx) :
    Option (ReadRet × InCtx) := readLoop e fresh binaryTime (ctx.f.length + 1) ctx

/-- What at most `n` calls return, up to the first that does not return 1. -/
def readCalls : ℕ → InCtx → Option (List ReadRet)
  | 0, _ => some []
  | n + 1, ctx =>
    match inCtxRead e fresh binaryTime ctx with
    | none => none
    | some (.packet p, ctx') => (readCalls n ctx').map (.packet p :: ·)
    | some (ret, _) => some [ret]

/-- `pcapng_in_ctx_init_file` (mypcapng.c:761-774) at the time `now`. -/
def inCtxInit (f : List UInt8) (now : UInt64) (ar : ℕ → InInterface) (buf : CallerBuf) : InCtx :=
  ⟨f, false, ⟨now, ⟨ar, 0, 0, 0, 0⟩, buf⟩⟩

end Reader

/-! ## Writer -/

/-- `struct pcapng_out_ctx` (mypcapng.h:29-33): the bytes written so far, the index of the next
interface, and the chains of the hash table, whose elements are the names and indices of the
interfaces. -/
structure OutCtx where
  f : List UInt8
  nextIndex : ℕ
  buckets : ℕ → List (List UInt8 × ℕ)

/-- `fwrite(buf, n, 1, f)`, which fails if `n` is 0; the callers return `-EIO` if it fails. -/
def fwrite (bs f : List UInt8) : Option (List UInt8) := if bs = [] then none else some (f ++ bs)

section Writer

variable (e : Endian) (stringHash : List UInt8 → ℕ)

/-- `pcapng_out_ctx_init` (mypcapng.c:102-126). -/
def outCtxInit : OutCtx where
  f := hdrSet e 4 0x0A0D0D0A ++ hdrSet e 4 28 ++ hdrSet e 4 0x1A2B3C4D ++ hdrSet e 2 1 ++
    hdrSet e 2 0 ++
    hdrSet e 8 0xFFFFFFFFFFFFFFFF ++ hdrSet e 4 28
  nextIndex := 0
  buckets := fun _ => []

/-- A length rounded up to a multiple of 4, from a `size_t` to a `uint32_t`. -/
def outPadded (len : ℕ) : ℕ := (len + 3) / 4 * 4 % 2 ^ 32

/-- The padding behind `len` bytes, if any (mypcapng.c:150-156, 226-232), from an array of 3 bytes.
-/
def writePad (len : ℕ) (f : List UInt8) : Option (List UInt8) :=
  let n := (outPadded len + 2 ^ 64 - len) % 2 ^ 64
  if n > 0 then if n ≤ 3 then fwrite (List.replicate n 0) f else none else some f

/-- `pcapng_write_ifname` (mypcapng.c:128-165). -/
def writeIfname (name f : List UInt8) : Option (List UInt8) := do
  let namelen := name.length
  let tlen := (20 + 8 + outPadded namelen) % 2 ^ 32
  let f ← fwrite (hdrSet e 4 1 ++ hdrSet e 4 tlen ++ hdrSet e 2 1 ++ hdrSet e 2 0 ++
    hdrSet e 4 0xFFFFFFFF ++
    hdrSet e 2 2 ++ hdrSet e 2 namelen) f
  let f ← fwrite name f
  let f ← writePad namelen f
  fwrite (hdrSet e 2 0 ++ hdrSet e 2 0 ++ hdrSet e 4 tlen) f

/-- The packet itself (mypcapng.c:207-237); `now` is what `gettime64` returns. -/
def writePacket (buf : List UInt8) (time64 now : UInt64) (index : ℕ) (f : List UInt8) :
    Option (List UInt8) := do
  let len := buf.length
  let tlen := (outPadded len + 32) % 2 ^ 32
  let time64 := if time64 = 0 then now else time64
  let f ← fwrite (hdrSet e 4 6 ++ hdrSet e 4 tlen ++ hdrSet e 4 index ++
    hdrSet e 4 (time64.toNat / 2 ^ 32) ++
    hdrSet e 4 (time64.toNat % 2 ^ 32) ++ hdrSet e 4 len ++ hdrSet e 4 len) f
  let f ← fwrite buf f
  let f ← writePad len f
  fwrite (hdrSet e 4 tlen) f

/-- `pcapng_out_ctx_write` (mypcapng.c:167-243). -/
def outCtxWrite (ctx : OutCtx) (buf : List UInt8) (time64 now : UInt64) (ifname : List UInt8) :
    Option OutCtx := do
  let bucket := stringHash ifname % 1024
  match (ctx.buckets bucket).find? fun x => x.1 = ifname with
  | some x =>
    let f ← writePacket e buf time64 now x.2 ctx.f
    some { ctx with f := f }
  | none =>
    let index := ctx.nextIndex
    let f ← writeIfname e ifname ctx.f
    let f ← writePacket e buf time64 now index f
    some
      { f := f, nextIndex := (index + 1) % 2 ^ 32,
        buckets := Function.update ctx.buckets bucket ((ifname, index) :: ctx.buckets bucket) }

end Writer

end Pptk.Mypcap
