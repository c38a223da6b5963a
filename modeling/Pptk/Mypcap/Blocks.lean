import Pptk.Mypcap.Pcapng

/-!
# pcapng files: blocks

A file as a list of blocks, the bytes of a block in either byte order, and what the reader does with
a block.

Main result: `readEpb_encode`.
-/

namespace Pptk.Mypcap

open Iphdr Lib List

/-! ## Blocks -/

/-- An option: its code, its data (numbers in the byte order of the host), and the padding behind
the data. -/
structure Opt where
  code : ℕ
  data : List UInt8
  pad : List UInt8

/-- A block. A section header says whether its section is swapped. -/
inductive Block
  | shb (swap : Bool) (major minor sectionLength : ℕ) (opts : List Opt)
  | idb (linktype reserved snaplen : ℕ) (opts : List Opt)
  | epb (ifid tshi tslo origLen : ℕ) (data pad : List UInt8) (opts : List Opt)
  | spb (origLen : ℕ) (data pad : List UInt8)
  | other (btype : ℕ) (body : List UInt8)

/-- The length of options in a file. -/
def optsLength (opts : List Opt) : ℕ := (opts.map fun o => 4 + o.data.length + o.pad.length).sum

/-- The total length of a block. -/
def Block.tlen : Block → ℕ
  | shb _ _ _ _ opts => 28 + optsLength opts
  | idb _ _ _ opts => 20 + optsLength opts
  | epb _ _ _ _ data pad opts => 32 + (data.length + pad.length) + optsLength opts
  | spb _ data pad => 16 + (data.length + pad.length)
  | other _ body => 12 + body.length

/-- The number of bytes behind some data up to a multiple of 4. -/
def IsPad (data pad : List UInt8) : Prop := data.length + pad.length = (data.length + 3) / 4 * 4

/-- The code and the length fit in their fields. -/
structure Opt.Ok (o : Opt) : Prop where
  code : o.code < 2 ^ 16
  length : o.data.length < 2 ^ 16
  pad : IsPad o.data o.pad

/-- The fields have values that fit, the lengths are right, and a simple packet without data is
empty. -/
def Block.Ok : Block → Prop
  | b@(shb _ major minor sectionLength opts) =>
    b.tlen < 2 ^ 32 ∧ major < 2 ^ 16 ∧ minor < 2 ^ 16 ∧ sectionLength < 2 ^ 64 ∧ ∀ o ∈ opts, o.Ok
  | b@(idb linktype reserved snaplen opts) =>
    b.tlen < 2 ^ 32 ∧ linktype < 2 ^ 16 ∧ reserved < 2 ^ 16 ∧ snaplen < 2 ^ 32 ∧ ∀ o ∈ opts, o.Ok
  | b@(epb ifid tshi tslo origLen data pad opts) =>
    b.tlen < 2 ^ 32 ∧ ifid < 2 ^ 32 ∧ tshi < 2 ^ 32 ∧ tslo < 2 ^ 32 ∧ origLen < 2 ^ 32 ∧
      IsPad data pad ∧
      ∀ o ∈ opts, o.Ok
  | b@(spb origLen data pad) => b.tlen < 2 ^ 32 ∧ origLen < 2 ^ 32 ∧ IsPad data pad ∧
    (data = [] → origLen = 0)
  | b@(other btype _) =>
    b.tlen < 2 ^ 32 ∧ btype < 2 ^ 32 ∧ btype ≠ 0x0A0D0D0A ∧ btype ≠ 1 ∧ btype ≠ 3 ∧ btype ≠ 6

/-! ## Bytes of a block -/

section Encode

variable (e : Endian)

/-- A field of `k` bytes, in the byte order of the host or in the other one. -/
def field (swap : Bool) (k v : ℕ) :
    List UInt8 := if swap then (hdrSet e k v).reverse else hdrSet e k v

/-- An option whose data are `data` in the file. -/
def optBytes (swap : Bool) (o : Opt) (data : List UInt8) : List UInt8 :=
  field e swap 2 o.code ++ field e swap 2 o.data.length ++ data ++ o.pad

/-- An option of an interface: the time-stamp offset (code 14) is a number. -/
def Opt.idbData (swap : Bool) (o : Opt) :
    List UInt8 := if swap = true ∧ o.code = 14 then o.data.reverse else o.data

/-- The bytes of a block in a section of the given byte order. -/
def Block.encode (swap : Bool) : Block → List UInt8
  | b@(shb swap major minor sectionLength opts) =>
    field e swap 4 0x0A0D0D0A ++ (field e swap 4 b.tlen ++ field e swap 4 0x1A2B3C4D ++
      field e swap 2 major ++
      field e swap 2 minor ++ field e swap 8 sectionLength ++
        opts.flatMap (fun o => optBytes e swap o o.data) ++
      field e swap 4 b.tlen)
  | b@(idb linktype reserved snaplen opts) =>
    field e swap 4 1 ++ (field e swap 4 b.tlen ++ field e swap 2 linktype ++
      field e swap 2 reserved ++
      field e swap 4 snaplen ++ opts.flatMap (fun o => optBytes e swap o (o.idbData swap)) ++
        field e swap 4 b.tlen)
  | b@(epb ifid tshi tslo origLen data pad opts) =>
    field e swap 4 6 ++ (field e swap 4 b.tlen ++ field e swap 4 ifid ++ field e swap 4 tshi ++
      field e swap 4 tslo ++
      field e swap 4 data.length ++ field e swap 4 origLen ++ data ++ pad ++
      opts.flatMap (fun o => optBytes e swap o o.data) ++ field e swap 4 b.tlen)
  | b@(spb origLen data pad) =>
    field e swap 4 3 ++ (field e swap 4 b.tlen ++ field e swap 4 origLen ++ data ++ pad ++
      field e swap 4 b.tlen)
  | b@(other btype body) =>
    field e swap 4 btype ++ (field e swap 4 b.tlen ++ body ++ field e swap 4 b.tlen)

/-- The byte order behind a block. -/
def Block.order (swap : Bool) : Block → Bool
  | shb swap _ _ _ _ => swap
  | _ => swap

/-- The bytes of a file. -/
def encodeFile : Bool → List Block → List UInt8
  | _, [] => []
  | swap, b :: bs => b.encode e swap ++ encodeFile (b.order swap) bs

end Encode

/-! ## What the reader does with a block -/

section Step

variable (e : Endian) (fresh : ℕ → ℕ → InInterface) (binaryTime : UInt64 → ℕ → UInt64)

/-- An option of an interface. -/
def applyOpt (intf : InInterface) (o : Opt) : Except Errno InInterface :=
  if o.code = 9 then
    if o.data.length ≠ 1 then .error .einval else .ok { intf with tsresol := o.data.headD 0 }
  else if o.code = 14 then
    if o.data.length ≠ 8 then .error .einval
      else .ok { intf with tsoffset := UInt64.ofNat (hdrGet e o.data) }
  else if o.code = 2 then
    if intf.name ≠ none ∨ o.data = [] then .error .einval
    else .ok { intf with name := some (o.data.takeWhile (· ≠ 0)) }
  else .ok intf

/-- What comes of a block: the next block is read, a call returns 1, or it returns something else.
-/
inductive BlockRet
  | next (st : InState)
  | packet (p : Packet) (st : InState)
  | stop (ret : ReadRet)

/-- What the reader does with a block, in a section of the given byte order. -/
def blockStep (swap : Bool) (st : InState) : Block → BlockRet
  | .shb _ major _ _ _ =>
    if major ≠ 1 then .stop (.error .enotsup)
      else .next { st with interfaces := st.interfaces.freeInterfaces }
  | .idb linktype _ snaplen opts =>
    let interfaces := st.interfaces.pushBack fresh
    let intf : InInterface :=
      { interfaces.ar (interfaces.size - 1) with
        linktype := linktype, snaplen := snaplen, name := none, tsresol := 6 }
    match opts.foldlM (applyOpt e) intf with
    | .error err => .stop (.error err)
    | .ok intf => .next { st with interfaces := interfaces.setLast intf }
  | .epb ifid tshi tslo origLen data _ opts =>
    if ifid ≥ st.interfaces.size ∨ opts ≠ [] ∨ data = [] then .stop (.error .einval)
    else
      let time64val := (st.interfaces.ar ifid).time64val binaryTime
        (UInt64.ofNat (tshi * 2 ^ 32 + tslo))
      .packet ⟨data, origLen, data.length, time64val, (st.interfaces.ar ifid).name⟩
        { st with lasttime := time64val, buf := st.buf.grow data.length }
  | .spb origLen data pad =>
    -- the length is not swapped
    let origLen := if swap then byteswap 4 origLen else origLen
    let capturedLen := min origLen (st.interfaces.ar 0).snaplen
    if st.interfaces.size = 0 ∨ padded capturedLen ≠ data.length + pad.length ∨ capturedLen = 0 then
      .stop (.error .einval)
    else
      .stop (.simple ⟨(data ++ pad).take capturedLen, origLen, capturedLen, st.lasttime,
        (st.interfaces.ar 0).name⟩)
  | .other _ _ => .next st

/-- What the calls return for a file, up to the first that does not return 1. -/
def interp : Bool → InState → List Block → List ReadRet
  | _, _, [] => [.eof]
  | swap, st, b :: bs =>
    match blockStep e fresh binaryTime swap st b with
    | .next st => interp (b.order swap) st bs
    | .packet p st => .packet p :: interp (b.order swap) st bs
    | .stop ret => [ret]

end Step

/-! ## File operations -/

theorem ok_bind {ε α β : Type} (x : α) (f : α → Except ε β) : (Except.ok x >>= f) = f x := rfl

/-- Reading known bytes. -/
theorem fread_append {n : ℕ} {bs rest : List UInt8} (hn : bs.length = n) (hpos : n ≠ 0) :
    fread n (bs ++ rest) = .ok (bs, rest) := by
  subst hn
  rw [fread, if_neg (by rw [length_append]; omega), take_left, drop_left]

theorem fskipLoop_eq {sz fuel skipped : ℕ} {f : List UInt8} (hle : skipped ≤ sz)
    (hfuel : sz - skipped ≤ fuel) (hf : sz - skipped ≤ f.length) :
    fskipLoop sz fuel skipped f = (sz, f.drop (sz - skipped)) := by
  induction fuel generalizing skipped f with
  | zero =>
    obtain rfl : skipped = sz := by omega
    rw [fskipLoop, Nat.sub_self, drop_zero]
  | succ fuel ih =>
    rw [fskipLoop]
    split_ifs with hlt
    · dsimp only
      generalize hret : min (if sz - skipped > 512 then 512 else sz - skipped) f.length = ret
      have hpos : 0 < ret := by
        rw [← hret]
        split_ifs <;> omega
      have hret_le : ret ≤ sz - skipped := by
        rw [← hret]
        split_ifs <;> omega
      rw [if_neg (by omega), ih (by omega) (by omega) (by rw [length_drop]; omega), drop_drop]
      congr 2
      omega
    · obtain rfl : skipped = sz := by omega
      rw [Nat.sub_self, drop_zero]

/-- Skipping known bytes. -/
theorem fskip_append {n : ℕ} {bs rest : List UInt8} (hn : bs.length = n) :
    fskip n (bs ++ rest) = .ok rest := by
  have hloop : fskipLoop n n 0 (bs ++ rest) = (n, rest) := by
    rw [fskipLoop_eq (Nat.zero_le n) (by omega) (by rw [length_append]; omega), Nat.sub_zero,
      ← hn, drop_left]
  rw [fskip, hloop, if_pos rfl]

/-! ## Fields -/

section Fields

variable {e : Endian} {swap : Bool} {k v : ℕ}

@[simp] theorem length_hdrSet : (hdrSet e k v).length = k := by
  cases e with
  | little => exact length_leBytes k v
  | big => rw [hdrSet, length_reverse, length_leBytes]

@[simp] theorem length_field : (field e swap k v).length = k := by
  rw [field]
  split_ifs
  · rw [length_reverse, length_hdrSet]
  · exact length_hdrSet

theorem hdrGet_hdrSet (hv : v < 256 ^ k) : hdrGet e (hdrSet e k v) = v := by
  cases e with
  | little => exact leNat_leBytes hv
  | big => rw [hdrSet, hdrGet, reverse_reverse, leNat_leBytes hv]

theorem byteswap_hdrGet {bs : List UInt8} (hk : bs.length = k) :
    byteswap k (hdrGet e bs) = hdrGet e bs.reverse := by
  cases e with
  | little => exact byteswap_leNat hk
  | big => rw [hdrGet, hdrGet, byteswap_leNat (by rw [length_reverse, hk])]

theorem hdrGet_field (hv : v < 256 ^ k) :
    hdrGet e (field e swap k v) = if swap then byteswap k v else v := by
  rw [field]
  split_ifs
  · rw [← byteswap_hdrGet length_hdrSet, hdrGet_hdrSet hv]
  · exact hdrGet_hdrSet hv

/-- A field is read back in the byte order of its section. -/
theorem getField_field {hdr : List UInt8} {off : ℕ} (hslice : slice hdr off k = field e swap k v)
    (hv : v < 256 ^ k) : getField e swap hdr off k = v := by
  rw [getField, hslice]
  split_ifs with hswap
  · rw [byteswap_hdrGet length_field, field, if_pos hswap, reverse_reverse, hdrGet_hdrSet hv]
  · rw [field, if_neg hswap, hdrGet_hdrSet hv]

theorem getField_first {bs : List UInt8} (hv : v < 256 ^ k) :
    getField e swap (field e swap k v ++ bs) 0 k = v :=
  getField_field (slice_append_left length_field) hv

/-- The only field of a header. -/
theorem getField_only (hv : v < 256 ^ k) : getField e swap (field e swap k v) 0 k = v :=
  getField_field (slice_self length_field) hv

theorem getField_skip {bs : List UInt8} {off n : ℕ} (hle : k ≤ off) :
    getField e swap (field e swap k v ++ bs) off n = getField e swap bs (off - k) n := by
  rw [getField, getField, slice_append_right length_field hle]

end Fields

theorem padded_of_isPad {data pad : List UInt8} (hpad : IsPad data pad)
    (hlt : data.length + pad.length < 2 ^ 32) : padded data.length = data.length + pad.length := by
  unfold IsPad at hpad
  unfold padded
  omega

/-! ## Section headers, other blocks -/

section Read

variable {e : Endian} {swap : Bool} {st : InState} {rest : List UInt8}

theorem length_optBytes {o : Opt} {data : List UInt8} (hdata : data.length = o.data.length) :
    (optBytes e swap o data).length = 4 + o.data.length + o.pad.length := by
  simp only [optBytes, length_append, length_field, hdata]

theorem length_opts {opts : List Opt} {data : Opt → List UInt8}
    (hdata : ∀ o, (data o).length = o.data.length) :
    (opts.flatMap fun o => optBytes e swap o (data o)).length = optsLength opts := by
  rw [length_flatMap, optsLength]
  congr 1
  exact map_congr_left fun o _ => length_optBytes (hdata o)

theorem optsLength_mod {opts : List Opt} (hok : ∀ o ∈ opts, o.Ok) : optsLength opts % 4 = 0 := by
  induction opts with
  | nil => rfl
  | cons o opts ih =>
    have hpad := (hok o (by simp)).pad
    have hrest := ih fun o ho => hok o (by simp [ho])
    unfold optsLength IsPad at *
    rw [map_cons, sum_cons]
    omega

variable (e st rest) in
/-- The reader on the bytes of a section header. -/
theorem readShb_encode (cur : Bool) {major minor sectionLength : ℕ} {opts : List Opt}
    (hok : (Block.shb swap major minor sectionLength opts).Ok) :
    readShb e ⟨field e swap 4 (28 + optsLength opts) ++
      (field e swap 4 0x1A2B3C4D ++ (field e swap 2 major ++
      (field e swap 2 minor ++ field e swap 8 sectionLength))) ++
      (opts.flatMap (fun o => optBytes e swap o o.data) ++
        (field e swap 4 (28 + optsLength opts) ++ rest)), cur, st⟩ =
      if major ≠ 1 then .error .enotsup
      else .ok ⟨rest, swap, { st with interfaces := st.interfaces.freeInterfaces }⟩ := by
  obtain ⟨htlen, hmajor, -, -, hopts⟩ := hok
  rw [Block.tlen] at htlen
  have hmod := optsLength_mod hopts
  have hbom : bomSwap (hdrGet e (field e swap 4 0x1A2B3C4D)) = .ok swap := by
    rw [hdrGet_field (by decide)]
    cases swap <;> rfl
  unfold readShb
  dsimp only
  rw [fread_append (by simp) (by decide), ok_bind]
  dsimp only
  rw [slice_append_right length_field (by decide), slice_append_left length_field, hbom, ok_bind]
  rw [getField_first (by omega), getField_skip (by decide), getField_skip (by decide),
    getField_first (by omega), if_neg (by omega)]
  split_ifs with hone
  · rfl
  · rw [fskip_append (by rw [length_opts fun _ => rfl]; omega), ok_bind,
      fread_append length_field (by decide), ok_bind]
    dsimp only
    rw [getField_only (by omega), if_neg (by simp)]

variable (e st rest) in
/-- The reader on the bytes of a block of another type. -/
theorem readOther_encode (swap : Bool) {btype : ℕ} {body : List UInt8}
    (hok : (Block.other btype body).Ok) :
    readOther e ⟨field e swap 4 (12 + body.length) ++
      (body ++ (field e swap 4 (12 + body.length) ++ rest)), swap, st⟩ = .ok ⟨rest, swap, st⟩ := by
  have htlen : 12 + body.length < 2 ^ 32 := hok.1
  unfold readOther
  dsimp only
  rw [fread_append length_field (by decide), ok_bind]
  dsimp only
  rw [getField_only (by omega), if_neg (by omega), fskip_append (by omega), ok_bind,
    fread_append length_field (by decide), ok_bind]
  dsimp only
  rw [getField_only (by omega), if_neg (by simp)]

/-! ## Interfaces -/

theorem length_idbData (o : Opt) : (o.idbData swap).length = o.data.length := by
  rw [Opt.idbData]
  split_ifs
  · exact length_reverse
  · rfl

theorem readOpts_encode {opts : List Opt} {fuel : ℕ} {intf : InInterface} (hopts : ∀ o ∈ opts, o.Ok)
    (hfuel : optsLength opts ≤ fuel) :
    readOpts e swap fuel (optsLength opts) intf
        (opts.flatMap (fun o => optBytes e swap o (o.idbData swap)) ++ rest) =
      (opts.foldlM (applyOpt e) intf).map fun intf => (intf, rest) := by
  induction opts generalizing fuel intf with
  | nil =>
    cases fuel with
    | zero => rfl
    | succ fuel =>
      rw [readOpts, if_pos (by decide)]
      rfl
  | cons o opts ih =>
    obtain ⟨hcode, hlength, hpad⟩ := hopts o (by simp)
    have hlen : optsLength (o :: opts) = 4 + o.data.length + o.pad.length + optsLength opts := by
      rw [optsLength, map_cons, sum_cons]
      rfl
    unfold IsPad at hpad
    have hpadded : padded o.data.length = o.data.length + o.pad.length := by
      unfold padded
      omega
    obtain ⟨fuel, rfl⟩ : ∃ n, fuel = n + 1 := ⟨fuel - 1, by omega⟩
    have hdata : (o.idbData swap).length = o.data.length := length_idbData o
    have hrest : ∀ intf, readOpts e swap fuel (optsLength opts) intf
        (opts.flatMap (fun o => optBytes e swap o (o.idbData swap)) ++ rest) =
        (opts.foldlM (applyOpt e) intf).map fun intf => (intf, rest) :=
      fun intf => ih (fun o ho => hopts o (by simp [ho])) (by omega)
    have hremaining : 4 + o.data.length + o.pad.length + optsLength opts - 4 -
      (o.data.length + o.pad.length) = optsLength opts := by omega
    rw [readOpts, if_neg (by omega), flatMap_cons, optBytes, append_assoc,
      append_assoc, append_assoc,
      fread_append (by simp) (by decide), ok_bind, foldlM_cons, applyOpt]
    dsimp only
    rw [getField_first (by omega), getField_skip (by decide), getField_only (by omega), hpadded,
      hlen, hremaining, if_neg (by omega)]
    by_cases htsresol : o.code = 9
    · rw [if_pos htsresol, if_pos htsresol]
      by_cases hone : o.data.length ≠ 1
      · rw [if_pos hone, if_pos hone]
        rfl
      · have hplain : o.idbData swap = o.data := if_neg (by omega)
        rw [if_neg hone, if_neg hone, hplain, ← append_assoc,
          fread_append (by rw [length_append]; omega) (by decide), ok_bind, ok_bind]
        have hhead : (o.data ++ o.pad).headD 0 = o.data.headD 0 := by
          cases hlist : o.data with
          | nil => simp [hlist] at hone
          | cons b bs => rfl
        dsimp only
        rw [hrest, hhead]
    rw [if_neg htsresol, if_neg htsresol]
    by_cases htsoffset : o.code = 14
    · rw [if_pos htsoffset, if_pos htsoffset]
      by_cases height : o.data.length ≠ 8
      · rw [if_pos height, if_pos height]
        rfl
      · have hnil : o.pad = [] := length_eq_zero_iff.mp (by omega)
        have hvalue : getField e swap (o.idbData swap) 0 8 = hdrGet e o.data := by
          rw [getField, slice_self (by omega), Opt.idbData]
          cases swap with
          | false => simp
          | true =>
            rw [if_pos rfl, if_pos ⟨rfl, htsoffset⟩,
              byteswap_hdrGet (by rw [length_reverse]; omega), reverse_reverse]
        rw [if_neg height, if_neg height, hnil, nil_append,
          fread_append (by omega) (by decide), ok_bind, ok_bind]
        dsimp only
        rw [hrest, hvalue]
    rw [if_neg htsoffset, if_neg htsoffset]
    have hplain : o.idbData swap = o.data := if_neg (by simp [htsoffset])
    rw [hplain, ← append_assoc]
    by_cases hname : o.code = 2
    · rw [if_pos hname, if_pos hname]
      by_cases hset : intf.name ≠ none
      · rw [if_pos hset, if_pos (.inl hset)]
        rfl
      · rw [if_neg hset]
        by_cases hempty : o.data = []
        · -- nothing is read, which counts as an error
          rw [if_pos (.inr hempty), fread,
            if_pos (.inl (by rw [hempty] at hpad ⊢; simpa using hpad))]
          rfl
        · have hpos : 0 < o.data.length := length_pos_iff.mpr hempty
          have hgood : ¬(intf.name ≠ none ∨ o.data = []) := by
            rintro (h | h)
            · exact hset h
            · exact hempty h
          rw [if_neg hgood, fread_append length_append (by omega), ok_bind, ok_bind]
          dsimp only
          rw [take_left, hrest]
    · rw [if_neg hname, if_neg hname, fskip_append length_append, ok_bind, ok_bind, hrest]

variable (e st rest) in
/-- The reader on the bytes of an interface description. -/
theorem readIdb_encode (swap : Bool) (fresh : ℕ → ℕ → InInterface) {linktype reserved snaplen : ℕ}
    {opts : List Opt} (hok : (Block.idb linktype reserved snaplen opts).Ok) :
    readIdb e fresh ⟨field e swap 4 (20 + optsLength opts) ++
      (field e swap 2 linktype ++ (field e swap 2 reserved ++
      field e swap 4 snaplen)) ++ (opts.flatMap (fun o => optBytes e swap o (o.idbData swap)) ++
      (field e swap 4 (20 + optsLength opts) ++ rest)), swap, st⟩ =
      (opts.foldlM (applyOpt e)
        { (st.interfaces.pushBack fresh).ar ((st.interfaces.pushBack fresh).size - 1) with
        linktype := linktype, snaplen := snaplen, name := none, tsresol := 6 }).map fun intf =>
        ⟨rest, swap, { st with interfaces := (st.interfaces.pushBack fresh).setLast intf }⟩ := by
  obtain ⟨htlen, hlinktype, -, hsnaplen, hopts⟩ := hok
  rw [Block.tlen] at htlen
  replace hlinktype : linktype < 256 ^ 2 := by omega
  replace hsnaplen : snaplen < 256 ^ 4 := by omega
  have hmod := optsLength_mod hopts
  have hsub : 20 + optsLength opts - 20 = optsLength opts := by omega
  have hfits : 20 + optsLength opts < 256 ^ 4 := by omega
  have hgood : ¬(20 + optsLength opts < 20 ∨ (20 + optsLength opts) % 4 ≠ 0) := by omega
  unfold readIdb
  dsimp only
  rw [fread_append (by simp) (by decide), ok_bind]
  dsimp only
  generalize hhdr : field e swap 4 (20 + optsLength opts) ++
    (field e swap 2 linktype ++ (field e swap 2 reserved ++
    field e swap 4 snaplen)) = hdr
  have htlen_eq : getField e swap hdr 0 4 = 20 + optsLength opts := by
    rw [← hhdr, getField_first hfits]
  have hlinktype_eq : getField e swap hdr 4 2 = linktype := by
    rw [← hhdr, getField_skip (by decide), getField_first hlinktype]
  have hsnaplen_eq : getField e swap hdr 8 4 = snaplen := by
    rw [← hhdr, getField_skip (by decide), getField_skip (by decide), getField_skip (by decide),
      getField_only hsnaplen]
  rw [htlen_eq, hlinktype_eq, hsnaplen_eq, if_neg hgood, hsub,
    readOpts_encode hopts (Nat.le_refl _)]
  cases opts.foldlM (applyOpt e) _ with
  | error err => rfl
  | ok intf =>
    rw [Except.map, ok_bind]
    dsimp only
    rw [fread_append length_field (by decide), ok_bind]
    dsimp only
    rw [getField_only hfits, if_neg (by simp)]
    rfl

/-! ## Packets -/

variable (e st rest) in
/-- An enhanced packet is read, unless it has options or is empty. -/
theorem readEpb_encode (swap : Bool) (binaryTime : UInt64 → ℕ → UInt64) {ifid tshi tslo origLen : ℕ}
    {data pad : List UInt8} {opts : List Opt}
    (hok : (Block.epb ifid tshi tslo origLen data pad opts).Ok) :
    readEpb e binaryTime ⟨field e swap 4 (32 + (data.length + pad.length) + optsLength opts) ++
      (field e swap 4 ifid ++
      (field e swap 4 tshi ++
        (field e swap 4 tslo ++ (field e swap 4 data.length ++ field e swap 4 origLen)))) ++
      (data ++ (pad ++ (opts.flatMap (fun o => optBytes e swap o o.data) ++
      (field e swap 4 (32 + (data.length + pad.length) + optsLength opts) ++ rest)))), swap, st⟩ =
      if ifid ≥ st.interfaces.size ∨ opts ≠ [] ∨ data = [] then .error .einval
      else .ok (⟨data, origLen, data.length,
          (st.interfaces.ar ifid).time64val binaryTime (UInt64.ofNat (tshi * 2 ^ 32 + tslo)),
          (st.interfaces.ar ifid).name⟩,
        ⟨rest, swap, { st with
          lasttime := (st.interfaces.ar ifid).time64val binaryTime
            (UInt64.ofNat (tshi * 2 ^ 32 + tslo)),
          buf := st.buf.grow data.length }⟩) := by
  obtain ⟨htlen, hifid, htshi, htslo, horig, hpad, -⟩ := hok
  rw [Block.tlen] at htlen
  replace hifid : ifid < 256 ^ 4 := by omega
  replace htshi : tshi < 256 ^ 4 := by omega
  replace htslo : tslo < 256 ^ 4 := by omega
  replace horig : origLen < 256 ^ 4 := by omega
  unfold IsPad at hpad
  have hpadded : padded data.length = data.length + pad.length := by
    unfold padded
    omega
  have hfits : 32 + (data.length + pad.length) + optsLength opts < 256 ^ 4 := by omega
  have hcaptured : data.length < 256 ^ 4 := by omega
  have hpadding : (data.length + pad.length + 2 ^ 32 - data.length) % 2 ^ 32 = pad.length := by
    omega
  have hlarge : ¬32 + (data.length + pad.length) + optsLength opts < 32 := by omega
  have hopts : data.length + pad.length < 32 + (data.length + pad.length) + optsLength opts - 32 ↔
    opts ≠ [] := by
    cases opts with
    | nil => simp [optsLength]
    | cons o opts =>
      rw [optsLength, map_cons, sum_cons]
      simp only [ne_eq, reduceCtorEq, not_false_eq_true, iff_true]
      omega
  unfold readEpb
  dsimp only
  rw [fread_append (by simp) (by decide), ok_bind]
  dsimp only
  generalize hhdr : field e swap 4 (32 + (data.length + pad.length) + optsLength opts) ++
    (field e swap 4 ifid ++
    (field e swap 4 tshi ++
      (field e swap 4 tslo ++ (field e swap 4 data.length ++ field e swap 4 origLen)))) = hdr
  have htlen_eq : getField e swap hdr 0 4 = 32 + (data.length + pad.length) + optsLength opts := by
    rw [← hhdr, getField_first hfits]
  have hifid_eq : getField e swap hdr 4 4 = ifid := by
    rw [← hhdr, getField_skip (by decide), getField_first hifid]
  have htshi_eq : getField e swap hdr 8 4 = tshi := by
    rw [← hhdr, getField_skip (by decide), getField_skip (by decide), getField_first htshi]
  have htslo_eq : getField e swap hdr 12 4 = tslo := by
    rw [← hhdr, getField_skip (by decide), getField_skip (by decide), getField_skip (by decide),
      getField_first htslo]
  have hcaptured_eq : getField e swap hdr 16 4 = data.length := by
    rw [← hhdr, getField_skip (by decide), getField_skip (by decide), getField_skip (by decide),
      getField_skip (by decide), getField_first hcaptured]
  have horig_eq : getField e swap hdr 20 4 = origLen := by
    rw [← hhdr, getField_skip (by decide), getField_skip (by decide), getField_skip (by decide),
      getField_skip (by decide), getField_skip (by decide), getField_only horig]
  rw [htlen_eq, hifid_eq, htshi_eq, htslo_eq, hcaptured_eq, horig_eq, hpadded, if_neg hlarge]
  clear htlen_eq hifid_eq htshi_eq htslo_eq hcaptured_eq horig_eq hhdr
  by_cases hbad : ifid ≥ st.interfaces.size
  · rw [if_pos hbad, if_pos (.inl hbad)]
  rw [if_neg hbad]
  by_cases hnone : opts = []
  · subst hnone
    rw [if_neg (fun h => hopts.mp h rfl)]
    by_cases hempty : data = []
    · rw [if_pos (.inr (.inr hempty)), fread, if_pos (.inl (by rw [hempty]; rfl))]
      rfl
    · have hpos : data.length ≠ 0 := fun h => hempty (length_eq_zero_iff.mp h)
      have hgood : ¬(ifid ≥ st.interfaces.size ∨ ([] : List Opt) ≠ [] ∨ data = []) := by
        rintro (h | h | h)
        · exact hbad h
        · exact h rfl
        · exact hempty h
      have htoskip : data.length + pad.length - (32 + (data.length + pad.length) +
        optsLength [] - 32) = ([] : List UInt8).length := by
        rw [optsLength, map_nil, sum_nil, length_nil]
        omega
      rw [if_neg hgood, fread_append rfl hpos, ok_bind, hpadding, htoskip]
      dsimp only
      rw [fskip_append rfl, ok_bind, flatMap_nil, fskip_append rfl, ok_bind,
        fread_append length_field (by decide), ok_bind]
      dsimp only
      rw [getField_only hfits, if_neg (by simp)]
  · -- the total length is too large for a packet without options
    rw [if_pos (hopts.mpr hnone), if_pos (.inr (.inl hnone))]

variable (e st rest) in
/-- The reader on the bytes of a simple packet. -/
theorem readSpb_encode (swap : Bool) {origLen : ℕ} {data pad : List UInt8}
    (hok : (Block.spb origLen data pad).Ok) :
    (readSpb e ⟨field e swap 4 (16 + (data.length + pad.length)) ++ field e swap 4 origLen ++
      (data ++ (pad ++ (field e swap 4 (16 + (data.length + pad.length)) ++ rest))), swap, st⟩).map
        Prod.fst =
      let origLen := if swap then byteswap 4 origLen else origLen
      let capturedLen := min origLen (st.interfaces.ar 0).snaplen
      if st.interfaces.size = 0 ∨ padded capturedLen ≠ data.length + pad.length ∨
        capturedLen = 0 then .error .einval
      else .ok ⟨(data ++ pad).take capturedLen, origLen, capturedLen, st.lasttime,
        (st.interfaces.ar 0).name⟩ := by
  obtain ⟨htlen, horig, hpad, hempty⟩ := hok
  rw [Block.tlen] at htlen
  replace horig : origLen < 256 ^ 4 := by omega
  unfold IsPad at hpad
  have hfits : 16 + (data.length + pad.length) < 256 ^ 4 := by omega
  have hlarge : ¬16 + (data.length + pad.length) < 16 := by omega
  have hsub : 16 + (data.length + pad.length) - 16 = data.length + pad.length := by omega
  dsimp only
  unfold readSpb
  dsimp only
  rw [fread_append (by simp) (by decide), ok_bind]
  dsimp only
  generalize hhdr : field e swap 4 (16 + (data.length + pad.length)) ++ field e swap 4 origLen = hdr
  have htlen_eq : getField e swap hdr 0 4 = 16 + (data.length + pad.length) := by
    rw [← hhdr, getField_first hfits]
  have horig_eq : hdrGet e (slice hdr 4 4) = if swap then byteswap 4 origLen else origLen := by
    rw [← hhdr, slice_append_right length_field (by decide), slice_self length_field,
      hdrGet_field horig]
  rw [htlen_eq, horig_eq, if_neg hlarge, hsub]
  clear htlen_eq horig_eq hhdr
  have hlen_lt : (if swap then byteswap 4 origLen else origLen) < 256 ^ 4 := by
    split_ifs
    · exact byteswap_lt
    · exact horig
  have hlen_zero : data = [] → (if swap then byteswap 4 origLen else origLen) = 0 := by
    intro h
    rw [hempty h]
    split_ifs <;> rfl
  generalize (if swap then byteswap 4 origLen else origLen) = len at hlen_lt hlen_zero ⊢
  have hmin : (if len > (st.interfaces.ar 0).snaplen then (st.interfaces.ar 0).snaplen else len) =
      min len (st.interfaces.ar 0).snaplen := by
    split_ifs <;> omega
  rw [hmin]
  have hcaptured_le : min len (st.interfaces.ar 0).snaplen ≤ len := Nat.min_le_left _ _
  generalize min len (st.interfaces.ar 0).snaplen = captured at hcaptured_le ⊢
  by_cases hsize : st.interfaces.size = 0
  · rw [if_pos (by omega), if_pos (.inl hsize)]
    rfl
  rw [if_neg (by omega)]
  by_cases hpadded : padded captured = data.length + pad.length
  · rw [if_neg (by simpa using hpadded)]
    by_cases hzero : captured = 0
    · rw [if_pos (.inr (.inr hzero)), fread, if_pos (.inl hzero)]
      rfl
    · -- the rounded length does not wrap around, since the packet is not empty
      have hdata : data.length ≠ 0 := fun h => by
        have hnil := hlen_zero (length_eq_zero_iff.mp h)
        omega
      have hround : captured ≤ data.length + pad.length ∧
          (data.length + pad.length + 2 ^ 32 - captured) % 2 ^ 32 = data.length +
            pad.length - captured := by
        unfold padded at hpadded
        omega
      have hgood : ¬(st.interfaces.size = 0 ∨ padded captured ≠ data.length + pad.length ∨
        captured = 0) := by
        rintro (h | h | h)
        · exact hsize h
        · exact h hpadded
        · exact hzero h
      have hsplit : data ++ (pad ++ (field e swap 4 (16 + (data.length + pad.length)) ++ rest)) =
          (data ++ pad).take captured ++ ((data ++ pad).drop captured ++
            (field e swap 4 (16 + (data.length + pad.length)) ++ rest)) := by
        rw [← append_assoc, ← append_assoc, ← append_assoc, take_append_drop, append_assoc]
      have htake : ((data ++ pad).take captured).length = captured := by
        rw [length_take, length_append, Nat.min_eq_left hround.1]
      have hdrop : ((data ++ pad).drop captured).length = data.length + pad.length - captured := by
        rw [length_drop, length_append]
      rw [if_neg hgood, hpadded, hround.2, hsplit, fread_append htake hzero, ok_bind]
      dsimp only
      rw [fskip_append hdrop, ok_bind]
      rfl
  · rw [if_pos hpadded, if_pos (.inr (.inl hpadded))]
    rfl

end Read

/-! ## The loop -/

section Run

variable {e : Endian} {fresh : ℕ → ℕ → InInterface} {binaryTime : UInt64 → ℕ → UInt64} {swap : Bool}
  {st : InState}

theorem getField_shb {cur : Bool} :
    getField e cur (field e swap 4 0x0A0D0D0A) 0 4 = 0x0A0D0D0A := by
  cases e <;> cases cur <;> cases swap <;> decide

variable (e fresh binaryTime swap st) in
theorem readLoop_shb (s : Bool) (fuel : ℕ) (f : List UInt8) :
    readLoop e fresh binaryTime (fuel + 1) ⟨field e s 4 0x0A0D0D0A ++ f, swap, st⟩ =
      match readShb e ⟨f, swap, st⟩ with
      | .error err => some (.error err, ⟨field e s 4 0x0A0D0D0A ++ f, swap, st⟩)
      | .ok ctx => readLoop e fresh binaryTime fuel ctx := by
  rw [readLoop, fread_append length_field (by decide)]
  dsimp only
  rw [getField_shb]
  exact if_pos rfl

variable (e fresh binaryTime swap st) in
theorem readLoop_idb (fuel : ℕ) (f : List UInt8) :
    readLoop e fresh binaryTime (fuel + 1) ⟨field e swap 4 1 ++ f, swap, st⟩ =
      match readIdb e fresh ⟨f, swap, st⟩ with
      | .error err => some (.error err, ⟨field e swap 4 1 ++ f, swap, st⟩)
      | .ok ctx => readLoop e fresh binaryTime fuel ctx := by
  rw [readLoop, fread_append length_field (by decide)]
  dsimp only
  rw [getField_only (by decide), if_neg (by decide)]
  exact if_pos rfl

variable (e fresh binaryTime swap st) in
theorem readLoop_spb (fuel : ℕ) (f : List UInt8) :
    readLoop e fresh binaryTime (fuel + 1) ⟨field e swap 4 3 ++ f, swap, st⟩ =
      some (packetRet ⟨field e swap 4 3 ++ f, swap, st⟩ .simple (readSpb e ⟨f, swap, st⟩)) := by
  rw [readLoop, fread_append length_field (by decide)]
  dsimp only
  rw [getField_only (by decide), if_neg (by decide), if_neg (by decide), if_neg (by decide),
    if_pos rfl]

variable (e fresh binaryTime swap st) in
theorem readLoop_epb (fuel : ℕ) (f : List UInt8) :
    readLoop e fresh binaryTime (fuel + 1) ⟨field e swap 4 6 ++ f, swap, st⟩ =
      some (packetRet ⟨field e swap 4 6 ++ f, swap, st⟩ .packet
        (readEpb e binaryTime ⟨f, swap, st⟩)) := by
  rw [readLoop, fread_append length_field (by decide)]
  dsimp only
  rw [getField_only (by decide), if_neg (by decide), if_neg (by decide), if_neg (by decide),
    if_neg (by decide)]

theorem fst_packetRet (ctx : InCtx) (ret : Packet → ReadRet) (r : Except Errno (Packet × InCtx)) :
    (packetRet ctx ret r).1 = match r.map Prod.fst with
      | .ok p => ret p
      | .error err => .error err := by
  cases r <;> rfl

variable (e fresh binaryTime swap st) in
/-- A step of the reader is a step on the blocks (`blockStep`). -/
theorem readLoop_encode {b : Block} (fuel : ℕ) (rest : List UInt8) (hok : b.Ok) :
    match blockStep e fresh binaryTime swap st b with
    | .next st' => readLoop e fresh binaryTime (fuel + 1) ⟨b.encode e swap ++ rest, swap, st⟩ =
        readLoop e fresh binaryTime fuel ⟨rest, b.order swap, st'⟩
    | .packet p st' => readLoop e fresh binaryTime (fuel + 1) ⟨b.encode e swap ++ rest, swap, st⟩ =
        some (.packet p, ⟨rest, b.order swap, st'⟩)
    | .stop ret => ∃ ctx, readLoop e fresh binaryTime (fuel + 1) ⟨b.encode e swap ++ rest, swap,
      st⟩ = some (ret, ctx) := by
  cases b with
  | shb s major minor sectionLength opts =>
    have hread := readShb_encode e st rest swap hok
    simp only [Block.encode, Block.tlen, Block.order, blockStep, append_assoc] at hread ⊢
    rw [readLoop_shb, hread]
    by_cases hmajor : major ≠ 1
    · rw [if_pos hmajor, if_pos hmajor]
      exact ⟨_, rfl⟩
    · rw [if_neg hmajor, if_neg hmajor]
  | idb linktype reserved snaplen opts =>
    have hread := readIdb_encode e st rest swap fresh hok
    simp only [Block.encode, Block.tlen, Block.order, blockStep, append_assoc] at hread ⊢
    rw [readLoop_idb, hread]
    cases opts.foldlM (applyOpt e) _ with
    | error err => exact ⟨_, rfl⟩
    | ok intf => rfl
  | epb ifid tshi tslo origLen data pad opts =>
    have hread := readEpb_encode e st rest swap binaryTime hok
    simp only [Block.encode, Block.tlen, Block.order, blockStep, append_assoc] at hread ⊢
    rw [readLoop_epb, hread]
    by_cases hbad : ifid ≥ st.interfaces.size ∨ opts ≠ [] ∨ data = []
    · rw [if_pos hbad, if_pos hbad]
      exact ⟨_, rfl⟩
    · rw [if_neg hbad, if_neg hbad]
      rfl
  | spb origLen data pad =>
    have hread := readSpb_encode e st rest swap hok
    simp only [Block.encode, Block.tlen, blockStep, append_assoc] at hread ⊢
    rw [readLoop_spb]
    generalize readSpb e _ = ret at hread ⊢
    have hret := fst_packetRet ⟨field e swap 4 3 ++
      (field e swap 4 (16 + (data.length + pad.length)) ++
      (field e swap 4 origLen ++
        (data ++ (pad ++ (field e swap 4 (16 + (data.length + pad.length)) ++ rest))))),
      swap, st⟩ .simple ret
    rw [hread] at hret
    split_ifs at hret ⊢ with hswap hbad hbad
    all_goals exact ⟨_, congrArg some (Prod.ext hret rfl)⟩
  | other btype body =>
    have hread := readOther_encode e st rest swap hok
    obtain ⟨-, hbtype, hshb, hidb, hspb, hepb⟩ := hok
    replace hbtype : btype < 256 ^ 4 := by omega
    simp only [Block.encode, Block.tlen, Block.order, blockStep, append_assoc] at hread ⊢
    rw [readLoop, fread_append length_field (by decide)]
    dsimp only
    rw [getField_only hbtype, if_neg hshb, if_neg hidb, if_pos ⟨hepb, hspb⟩, hread]

theorem length_encode {b : Block} : 4 ≤ (b.encode e swap).length := by
  cases b <;> simp [Block.encode]

theorem length_encodeFile {bs : List Block} : bs.length ≤ (encodeFile e swap bs).length := by
  induction bs generalizing swap with
  | nil => exact Nat.zero_le _
  | cons b bs ih =>
    have hb : 4 ≤ (b.encode e swap).length := length_encode
    have hbs : bs.length ≤ (encodeFile e (b.order swap) bs).length := ih
    rw [encodeFile, length_append, length_cons]
    omega

theorem blockStep_stop {b : Block} {ret : ReadRet}
    (h : blockStep e fresh binaryTime swap st b = .stop ret) (p : Packet) : ret ≠ .packet p := by
  rintro rfl
  cases b with
  | other btype body => simp [blockStep] at h
  | spb origLen data pad =>
    simp only [blockStep] at h
    split_ifs at h <;> simp at h
  | _ =>
    simp only [blockStep] at h
    split at h <;> simp at h

/-- What one call does with the blocks that are still to be read. -/
inductive CallRet (e : Endian) (fresh : ℕ → ℕ → InInterface) (binaryTime : UInt64 → ℕ → UInt64) :
    List ReadRet → ReadRet × InCtx → Prop
  | packet (p : Packet) (swap : Bool) (st : InState) (bs : List Block) (hok : ∀ b ∈ bs, b.Ok) :
    CallRet e fresh binaryTime (.packet p :: interp e fresh binaryTime swap st bs)
      (.packet p, ⟨encodeFile e swap bs, swap, st⟩)
  | stop (ret : ReadRet) (ctx : InCtx) (hret : ∀ p, ret ≠ .packet p) :
    CallRet e fresh binaryTime [ret] (ret, ctx)

theorem readLoop_encodeFile {bs : List Block} {fuel : ℕ} (hok : ∀ b ∈ bs, b.Ok)
    (hfuel : bs.length < fuel) :
    ∃ r, readLoop e fresh binaryTime fuel ⟨encodeFile e swap bs, swap, st⟩ = some r ∧
      CallRet e fresh binaryTime (interp e fresh binaryTime swap st bs) r := by
  induction bs generalizing swap st fuel with
  | nil =>
    obtain ⟨fuel, rfl⟩ : ∃ n, fuel = n + 1 := ⟨fuel - 1, by omega⟩
    refine ⟨(.eof, ⟨[], swap, st⟩), ?_, .stop _ _ (by simp)⟩
    rw [readLoop]
    rfl
  | cons b bs ih =>
    obtain ⟨fuel, rfl⟩ : ∃ n, fuel = n + 1 := ⟨fuel - 1, by omega⟩
    have hb : b.Ok := hok b (by simp)
    have hbs : ∀ b ∈ bs, b.Ok := fun b hb => hok b (by simp [hb])
    have hstep := readLoop_encode e fresh binaryTime swap st fuel (encodeFile e (b.order swap) bs)
      hb
    rw [interp, encodeFile]
    cases hret : blockStep e fresh binaryTime swap st b with
    | next st' =>
      rw [hret] at hstep
      dsimp only at hstep ⊢
      rw [hstep]
      exact ih hbs (by rw [length_cons] at hfuel; omega)
    | packet p st' =>
      rw [hret] at hstep
      exact ⟨_, hstep, .packet p _ st' bs hbs⟩
    | stop ret =>
      rw [hret] at hstep
      obtain ⟨ctx, hctx⟩ := hstep
      exact ⟨_, hctx, .stop ret ctx (blockStep_stop hret)⟩

/-- What the calls return for a file (`interp`). -/
theorem readCalls_encode {bs : List Block} (hok : ∀ b ∈ bs, b.Ok) (n : ℕ) :
    readCalls e fresh binaryTime n ⟨encodeFile e swap bs, swap, st⟩ =
      some ((interp e fresh binaryTime swap st bs).take n) := by
  induction n generalizing swap st bs with
  | zero => rfl
  | succ n ih =>
    obtain ⟨r, hloop, hret⟩ := readLoop_encodeFile hok (Nat.lt_succ_of_le length_encodeFile)
    rw [readCalls, inCtxRead, hloop]
    generalize interp e fresh binaryTime swap st bs = rets at hret ⊢
    cases hret with
    | packet p swap st bs hok =>
      dsimp only
      rw [ih hok]
      rfl
    | stop ret ctx hret =>
      cases ret with
      | packet p => exact absurd rfl (hret p)
      | _ => simp

theorem eq_of_take_eq {α : Type} {as bs : List α} (h : ∀ n, as.take n = bs.take n) : as = bs := by
  have hall := h (max as.length bs.length)
  rwa [take_of_length_le (Nat.le_max_left ..), take_of_length_le (Nat.le_max_right ..)] at hall

end Run

end Pptk.Mypcap
