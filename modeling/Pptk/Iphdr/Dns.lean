import Pptk.Iphdr.Transport
import Pptk.Lib.Loop

/-!
# Reading DNS messages

Model of the functions of `iphdr/dnshdr.c` and `iphdr/dnshdr.h` that read a message. The byte
`cdns[i]` is `m i`. A character buffer is modelled by the string in it, up to the first zero byte.

The ghosts `reads`, `stores` and `datStores` are the indices of the bytes of the message that are
read, and the indices at which `buf` and `datbuf` are written. The loops need not end; a
function with the argument `fuel` gives up after so many iterations of one of them.
-/

namespace Pptk.Iphdr

open Lib List

/-- `-EFAULT` and `-ENOENT`. -/
inductive DnsErr
  | efault
  | enoent
deriving DecidableEq, Repr

/-! ## Header -/

/-- `dns_qdcount` (dnshdr.h:113-117), a `uint8_t`. -/
def dnsQdcount (m : Mem) : ℕ := hdrGet16n m 4 % 256

/-- `dns_ancount` (dnshdr.h:118-122), a `uint8_t`. -/
def dnsAncount (m : Mem) : ℕ := hdrGet16n m 6 % 256

/-- `dns_next_init_qd` (dnshdr.h:168-177): the offset and the number of questions. -/
def dnsNextInitQd (m : Mem) (plen : ℕ) : Option (ℕ × ℕ) :=
  if plen < 12 then none else some (12, dnsQdcount m)

/-- `dns_next_init_an_ask` (dnshdr.h:179-187): the number of answers. -/
def dnsNextInitAnAsk (m : Mem) (off plen : ℕ) : Option ℕ :=
  if plen < off then none else some (dnsAncount m)

/-! ## Names -/

/-- The string that is left of some bytes. -/
def cstr (s : List UInt8) : List UInt8 := s.takeWhile (· ≠ 0)

/-- Some bytes of the message. -/
def bytesAt (m : Mem) (i n : ℕ) : List UInt8 := (range n).map fun j => m (i + j)

/-- The state of the loops that read a name (dnshdr.c:31-87, 111-171, 407-463): `*off`, `laboff` or
`datoff`, `jmp`, and the string in the buffer. -/
structure NameLoop where
  off : ℕ
  laboff : ℕ
  jmp : Bool
  str : List UInt8
  reads : List ℕ
  stores : List ℕ

/-- The state at the beginning: the string is empty. -/
def NameLoop.start (off : ℕ) : NameLoop := ⟨off, off, false, [], [], [0]⟩

/-- The second half of an iteration (dnshdr.c:72-86): the label of length `labsiz` at `laboff` and a
dot are appended to the string. -/
def copyLabel (m : Mem) (plen bufsiz : ℕ) (s : NameLoop) (labsiz : ℕ) :
    NameLoop ⊕ Except NameLoop NameLoop :=
  if s.laboff + labsiz ≥ plen then .inr (.error s)
  else if labsiz + s.str.length + 2 > bufsiz then .inr (.error s)
  else
    .inl { s with
      laboff := s.laboff + labsiz
      str := cstr (s.str ++ bytesAt m s.laboff labsiz ++ [46])
      reads := s.reads ++ (range labsiz).map (s.laboff + ·)
      stores := s.stores ++ (range (labsiz + 2)).map (s.str.length + ·) }

/-- A byte at `laboff` is read, which belongs to the name itself unless a pointer has been followed
(dnshdr.c:33-38, 51-55). `laboff` is less than `plen` there, and so is `*off`. -/
def NameLoop.advance (s : NameLoop) : NameLoop :=
  { s with
    laboff := s.laboff + 1
    off := if s.jmp then s.off else s.off + 1
    reads := s.reads ++ [s.laboff] }

/-- One iteration of the loops that read a name. `*remcnt` is not 0 there. The result of a loop is
the state in which it is left, or the state in which `-EFAULT` is returned. -/
def nameBody (m : Mem) (plen bufsiz : ℕ) (s : NameLoop) : NameLoop ⊕ Except NameLoop NameLoop :=
  if s.off < plen then
    let labsiz := (m s.laboff).toNat
    let s := s.advance
    if labsiz = 0 then .inr (.ok s)
    else if labsiz ≥ 192 then
      if s.laboff ≥ plen then .inr (.error s)
      else
        let target := labsiz % 64 * 256 + (m s.laboff).toNat
        let s := s.advance
        if target ≥ plen then .inr (.error s)
        else
          copyLabel m plen bufsiz
            { s with laboff := target + 1, jmp := true, reads := s.reads ++ [target] }
              (m target).toNat
    else
      copyLabel m plen bufsiz
        { s with off := if s.jmp then s.off else (s.off + labsiz) % 65536 } labsiz
  else .inr (.ok s)

/-! ## Questions and answers -/

/-- What a call returns, or its error, and what it leaves in `*off` and `*remcnt`. -/
structure DnsCall (α : Type) where
  ret : Except DnsErr α
  off : ℕ
  remcnt : ℕ
  reads : List ℕ
  stores : List ℕ
  datStores : List ℕ

structure DnsQuestion where
  name : List UInt8
  qtype : ℕ
  qclass : ℕ
deriving DecidableEq, Repr

structure DnsAnswer where
  name : List UInt8
  qtype : ℕ
  qclass : ℕ
  ttl : ℕ
  data : List UInt8
  datbuflen : ℕ
deriving DecidableEq, Repr

/-- `strlen(buf) - 1` as a `size_t`: where the last character of a string is. -/
def lastIndex (s : List UInt8) : ℕ := (s.length + (2 ^ 64 - 1)) % 2 ^ 64

/-- The part of `dns_next` after the loop (dnshdr.c:464-474). -/
def dnsNextRest (m : Mem) (remcnt plen : ℕ) : Except NameLoop NameLoop → DnsCall DnsQuestion
  | .error s => ⟨.error .efault, s.off, remcnt, s.reads, s.stores, []⟩
  | .ok s =>
    if s.off + 4 > plen then ⟨.error .efault, s.off, remcnt, s.reads, s.stores, []⟩
    else
      -- the last dot is taken away
      ⟨.ok ⟨s.str.dropLast, hdrGet16n m s.off, hdrGet16n m (s.off + 2)⟩, s.off + 4, remcnt - 1,
        s.reads ++ (range 4).map (s.off + ·), s.stores ++ [lastIndex s.str], []⟩

/-- `dns_next` (dnshdr.c:391-475). -/
def dnsNext (fuel : ℕ) (m : Mem) (off remcnt plen bufsiz : ℕ) : Option (DnsCall DnsQuestion) :=
  if remcnt = 0 then some ⟨.error .enoent, off, remcnt, [], [0], []⟩
  else (loop (nameBody m plen bufsiz) fuel (.start off)).map (dnsNextRest m remcnt plen)

/-- The part of `dns_next_an_ask` after the fixed fields for a record that is no CNAME
(dnshdr.c:97-106, 176-177); `s` is the state after the name. -/
def anAskData (m : Mem) (remcnt datbufsiz : ℕ) (s : NameLoop) : DnsCall DnsAnswer :=
  let datrem := hdrGet16n m (s.off + 8)
  let reads := s.reads ++ (range 10).map (s.off + ·)
  if datrem + 2 > datbufsiz then ⟨.error .efault, s.off + 10, remcnt, reads, s.stores, [0]⟩
  else
    ⟨.ok ⟨s.str, hdrGet16n m s.off, hdrGet16n m (s.off + 2), hdrGet32n m (s.off + 4),
        bytesAt m (s.off + 10) datrem, datrem⟩, s.off + 10, remcnt - 1,
      reads ++ (range datrem).map (s.off + 10 + ·), s.stores, 0 :: range datrem⟩

/-- The end of `dns_next_an_ask` for a CNAME (dnshdr.c:172-177), after the loop that reads the data.
-/
def anAskCnameRest (m : Mem) (remcnt : ℕ) (s : NameLoop) :
    Except NameLoop NameLoop → DnsCall DnsAnswer
  | .error d =>
    ⟨.error .efault, d.off, remcnt, s.reads ++ (range 10).map (s.off + ·) ++ d.reads, s.stores,
      d.stores⟩
  | .ok d =>
    ⟨.ok ⟨s.str, hdrGet16n m s.off, hdrGet16n m (s.off + 2), hdrGet32n m (s.off + 4),
      d.str.dropLast, d.str.length⟩, d.off, remcnt - 1,
      s.reads ++ (range 10).map (s.off + ·) ++ d.reads, s.stores,
      d.stores ++ [lastIndex d.str]⟩

/-- The part of `dns_next_an_ask` after the fixed fields for a CNAME (dnshdr.c:107-177). The loop is
that of a name, with the size of the other buffer, and with `datrem`, which does not change, checked
in each iteration. -/
def anAskCname (fuel : ℕ) (m : Mem) (remcnt plen bufsiz : ℕ) (s : NameLoop) :
    Option (DnsCall DnsAnswer) :=
  if s.off + 10 < plen ∧ hdrGet16n m (s.off + 8) = 0 then
    some ⟨.error .efault, s.off + 10, remcnt, s.reads ++ (range 10).map (s.off + ·), s.stores, [0]⟩
  else
    (loop (nameBody m plen bufsiz) fuel (.start (s.off + 10))).map (anAskCnameRest m remcnt s)

/-- The part of `dns_next_an_ask` after the loop that reads the name (dnshdr.c:88-177). -/
def anAskRest (fuel : ℕ) (m : Mem) (remcnt plen bufsiz datbufsiz : ℕ) :
    Except NameLoop NameLoop → Option (DnsCall DnsAnswer)
  | .error s => some ⟨.error .efault, s.off, remcnt, s.reads, s.stores, [0]⟩
  | .ok s =>
    if s.off + 10 > plen then some ⟨.error .efault, s.off, remcnt, s.reads, s.stores, [0]⟩
    else if hdrGet16n m s.off ≠ 5 then some (anAskData m remcnt datbufsiz s)
    else anAskCname fuel m remcnt plen bufsiz s

/-- `dns_next_an_ask` (dnshdr.c:12-178). -/
def dnsNextAnAsk (fuel : ℕ) (m : Mem) (off remcnt plen bufsiz datbufsiz : ℕ) :
    Option (DnsCall DnsAnswer) :=
  if remcnt = 0 then some ⟨.error .enoent, off, remcnt, [], [0], [0]⟩
  else
    (loop (nameBody m plen bufsiz) fuel (.start off)).bind
      (anAskRest fuel m remcnt plen bufsiz datbufsiz)

/-- The call of `dns_next` returns. -/
def DnsNextReturns (m : Mem) (off remcnt plen bufsiz : ℕ) (r : DnsCall DnsQuestion) : Prop :=
  ∃ fuel, dnsNext fuel m off remcnt plen bufsiz = some r

/-- The call of `dns_next_an_ask` returns. -/
def DnsNextAnAskReturns (m : Mem) (off remcnt plen bufsiz datbufsiz : ℕ) (r : DnsCall DnsAnswer) :
    Prop := ∃ fuel, dnsNextAnAsk fuel m off remcnt plen bufsiz datbufsiz = some r

/-! ## Resolving a name -/

/-- A call that has been made with `*off` and `*remcnt`, and what it has returned. -/
structure DnsCallRecord (α : Type) where
  off : ℕ
  remcnt : ℕ
  call : DnsCall α

/-- What `recursive_resolve` has done: `none` stands for an abort, and the type of the record with
its data for a success. The calls of `dns_next` and `dns_next_an_ask` are kept. -/
structure Resolve where
  ret : Option (Except DnsErr DnsAnswer)
  questions : List (DnsCallRecord DnsQuestion)
  answers : List (DnsCallRecord DnsAnswer)

/-- How the inner loop of `recursive_resolve` is left: with a return, or with another name to look
for. -/
inductive ScanEnd
  | ret (r : Except DnsErr DnsAnswer)
  | cname (nextbuf : List UInt8)

/-- `snprintf(nextbuf, sizeof(nextbuf), "%s.", s)` with a buffer of 8192 bytes. -/
def withDot (s : List UInt8) : List UInt8 := (s ++ [46]).take 8191

section Resolve

variable (fuel : ℕ) (m : Mem) (plen qclassexp databufsiz : ℕ)

/-- The inner loop of `recursive_resolve` (dnshdr.c:513-541) with `remcnt` records left. -/
def resolveScan (nextbuf : List UInt8) : ℕ → ℕ → Option (List (DnsCallRecord DnsAnswer) × ScanEnd)
  | 0, aoff =>
    (dnsNextAnAsk fuel m aoff 0 plen 8192 databufsiz).map fun r =>
      ([⟨aoff, 0, r⟩], .ret (.error .enoent))
  | remcnt + 1, aoff =>
    (dnsNextAnAsk fuel m aoff (remcnt + 1) plen 8192 databufsiz).bind fun r =>
      match r.ret with
      | .error _ => some ([⟨aoff, remcnt + 1, r⟩], .ret (.error .enoent))
      | .ok a =>
        if a.name ≠ nextbuf then
          (resolveScan nextbuf remcnt r.off).map fun x => (⟨aoff, remcnt + 1, r⟩ :: x.1, x.2)
        else if a.qclass ≠ qclassexp then
          some ([⟨aoff, remcnt + 1, r⟩], .ret (.error .enoent))
        else if a.qtype = 5 then some ([⟨aoff, remcnt + 1, r⟩], .cname (withDot a.data))
        else some ([⟨aoff, remcnt + 1, r⟩], .ret (.ok a))

/-- The outer loop of `recursive_resolve` (dnshdr.c:509-542) with some iterations left. -/
def resolveChain (aoff : ℕ) :
    ℕ → List UInt8 → Option (List (DnsCallRecord DnsAnswer) × Except DnsErr DnsAnswer)
  | 0, _ => some ([], .error .enoent)
  | i + 1, nextbuf =>
    (resolveScan fuel m plen qclassexp databufsiz nextbuf (dnsAncount m) aoff).bind fun x =>
      match x.2 with
      | .ret r => some (x.1, r)
      | .cname nextbuf => (resolveChain aoff i nextbuf).map fun y => (x.1 ++ y.1, y.2)

/-- `recursive_resolve` after the first question has been read (dnshdr.c:502-543). -/
def resolveRest (name : List UInt8) (q : DnsCallRecord DnsQuestion) : Option Resolve :=
  (dnsNext fuel m q.call.off q.call.remcnt plen 8192).bind fun r =>
    match r.ret with
    | .ok _ => some ⟨some (.error .efault), [q, ⟨q.call.off, q.call.remcnt, r⟩], []⟩
    | .error _ =>
      match dnsNextInitAnAsk m r.off plen with
      | none => some ⟨none, [q, ⟨q.call.off, q.call.remcnt, r⟩], []⟩
      | some _ =>
        (resolveChain fuel m plen qclassexp databufsiz r.off 100 (withDot name)).map fun x =>
          ⟨some x.2, [q, ⟨q.call.off, q.call.remcnt, r⟩], x.1⟩

/-- `recursive_resolve` (dnshdr.c:477-544). `recvd` is passed on as a `uint16_t`. -/
def recursiveResolve (recvd : ℕ) (name : List UInt8) : Option Resolve :=
  match dnsNextInitQd m (recvd % 65536) with
  | none => some ⟨none, [], []⟩
  | some (aoff, remcnt) =>
    (dnsNext fuel m aoff remcnt (recvd % 65536) 8192).bind fun r =>
      match r.ret with
      | .error _ => some ⟨some (.error .enoent), [⟨aoff, remcnt, r⟩], []⟩
      | .ok q =>
        if q.name ≠ name then some ⟨some (.error .enoent), [⟨aoff, remcnt, r⟩], []⟩
        else resolveRest fuel m (recvd % 65536) qclassexp databufsiz name ⟨aoff, remcnt, r⟩

end Resolve

/-- The call of `recursive_resolve` returns or aborts. -/
def RecursiveResolveReturns (m : Mem) (recvd : ℕ) (name : List UInt8) (qclassexp databufsiz : ℕ)
    (r : Resolve) : Prop := ∃ fuel, recursiveResolve fuel m qclassexp databufsiz recvd name = some r

end Pptk.Iphdr
