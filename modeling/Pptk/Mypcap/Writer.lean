import Pptk.Mypcap.Blocks

/-!
# pcapng files: what the writer writes

The writer describes an interface when a packet of it is written for the first time.
-/

namespace Pptk.Mypcap

open Iphdr Lib Function List

/-! ## Calls -/

/-- A call of `pcapng_out_ctx_write`; `now` is the time at which it is made. -/
structure WriteCall where
  buf : List UInt8
  time64 : UInt64
  now : UInt64
  ifname : List UInt8

/-- A packet of 1 to `2^31` bytes, a time that is not zero and below `2^63`, and a name of 1 to
65535 bytes. -/
structure WriteCall.Ok (c : WriteCall) : Prop where
  buf_pos : 0 < c.buf.length
  buf_le : c.buf.length ≤ 2 ^ 31
  time64_ne : c.time64 ≠ 0
  time64_lt : c.time64.toNat < 2 ^ 63
  ifname_pos : 0 < c.ifname.length
  ifname_le : c.ifname.length ≤ 65535
  ifname_ne : ∀ b ∈ c.ifname, b ≠ 0

/-- The calls, one after another. -/
def writeCalls (e : Endian) (stringHash : List UInt8 → ℕ) (ctx : OutCtx) (calls : List WriteCall) :
    Option OutCtx :=
  calls.foldlM (fun ctx c => outCtxWrite e stringHash ctx c.buf c.time64 c.now c.ifname) ctx

/-! ## Blocks -/

/-- The padding behind `n` bytes. -/
def zeroPad (n : ℕ) : List UInt8 := replicate ((n + 3) / 4 * 4 - n) 0

/-- The block at the start of the file. -/
def outShb : Block := .shb false 1 0 0xFFFFFFFFFFFFFFFF []

/-- The block that describes an interface. -/
def idbOf (name : List UInt8) : Block :=
  .idb 1 0 0xFFFFFFFF [⟨2, name, zeroPad name.length⟩, ⟨0, [], []⟩]

/-- The block of a packet. -/
def epbOf (c : WriteCall) (index : ℕ) : Block :=
  .epb index (c.time64.toNat / 2 ^ 32) (c.time64.toNat % 2 ^ 32) c.buf.length c.buf
    (zeroPad c.buf.length) []

/-- The names of the interfaces, with one more if it is new. -/
def addName (names : List (List UInt8)) (name : List UInt8) : List (List UInt8) :=
  if name ∈ names then names else names ++ [name]

/-- The blocks that a call writes, when interfaces with the given names are described. -/
def callBlocks (names : List (List UInt8)) (c : WriteCall) : List Block :=
  if c.ifname ∈ names then [epbOf c (names.idxOf c.ifname % 2 ^ 32)]
  else [idbOf c.ifname, epbOf c (names.length % 2 ^ 32)]

/-- The blocks that calls write. -/
def callsBlocks : List (List UInt8) → List WriteCall → List Block
  | _, [] => []
  | names, c :: cs => callBlocks names c ++ callsBlocks (addName names c.ifname) cs

section Encode

variable {e : Endian} {c : WriteCall} {f name : List UInt8}

theorem some_bind {α β : Type} (x : α) (f : α → Option β) : (some x >>= f) = f x := rfl

theorem length_zeroPad {n : ℕ} : n + (zeroPad n).length = (n + 3) / 4 * 4 := by
  rw [zeroPad, length_replicate]
  omega

theorem fwrite_eq {bs : List UInt8} (hbs : bs.length ≠ 0) : fwrite bs f = some (f ++ bs) :=
  if_neg fun h => hbs (by rw [h]; rfl)

theorem writePad_eq {n : ℕ} (hn : n ≤ 2 ^ 31) : writePad n f = some (f ++ zeroPad n) := by
  have hlen : (outPadded n + 2 ^ 64 - n) % 2 ^ 64 = (n + 3) / 4 * 4 - n := by
    unfold outPadded
    omega
  unfold writePad
  dsimp only
  rw [hlen]
  by_cases hpos : (n + 3) / 4 * 4 - n > 0
  · rw [if_pos hpos, if_pos (by omega), fwrite_eq (by rw [length_replicate]; omega), zeroPad]
  · rw [if_neg hpos, zeroPad, Nat.eq_zero_of_not_pos hpos, replicate_zero, append_nil]

/-- The bytes of an interface are those of a block. -/
theorem writeIfname_eq (hpos : 0 < name.length) (hle : name.length ≤ 65535) :
    writeIfname e name f = some (f ++ (idbOf name).encode e false) := by
  have hpad : name.length + (zeroPad name.length).length = (name.length + 3) / 4 * 4 :=
    length_zeroPad
  have htlen : (20 + 8 + outPadded name.length) % 2 ^ 32 = (idbOf name).tlen := by
    rw [idbOf, Block.tlen, optsLength]
    simp only [map_cons, map_nil, sum_cons, sum_nil, length_nil]
    unfold outPadded
    omega
  unfold writeIfname
  dsimp only
  rw [htlen, fwrite_eq (by simp), some_bind, fwrite_eq (by omega), some_bind,
    writePad_eq (by omega), some_bind, fwrite_eq (by simp), idbOf, Block.encode]
  simp only [field, Bool.false_eq_true, if_false, flatMap_cons, flatMap_nil, optBytes,
    Opt.idbData, false_and, append_assoc, append_nil, length_nil]

/-- The bytes of a packet are those of a block. -/
theorem writePacket_eq {index : ℕ} (hc : c.Ok) :
    writePacket e c.buf c.time64 c.now index f = some (f ++ (epbOf c index).encode e false) := by
  have hpos := hc.buf_pos
  have hle := hc.buf_le
  have hpad : c.buf.length + (zeroPad c.buf.length).length = (c.buf.length + 3) / 4 * 4 :=
    length_zeroPad
  have htlen : (outPadded c.buf.length + 32) % 2 ^ 32 = (epbOf c index).tlen := by
    rw [epbOf, Block.tlen, optsLength, map_nil, sum_nil]
    unfold outPadded
    omega
  unfold writePacket
  dsimp only
  rw [htlen, if_neg hc.time64_ne, fwrite_eq (by simp), some_bind, fwrite_eq (by omega), some_bind,
    writePad_eq hle, some_bind, fwrite_eq (by simp), epbOf, Block.encode]
  simp only [field, Bool.false_eq_true, if_false, flatMap_nil, append_assoc, nil_append]

end Encode

variable {e : Endian} {c : WriteCall} {names : List (List UInt8)} {stringHash : List UInt8 → ℕ}

theorem outCtxInit_f : (outCtxInit e).f = outShb.encode e false := by
  simp only [outCtxInit, outShb, Block.encode, Block.tlen, optsLength, field, Bool.false_eq_true,
    if_false,
    flatMap_nil, map_nil, sum_nil, Nat.add_zero, append_assoc, nil_append]

theorem ok_outShb : outShb.Ok := by
  simp [outShb, Block.Ok, Block.tlen, optsLength]

theorem ok_idbOf {name : List UInt8} (hle : name.length ≤ 65535) : (idbOf name).Ok := by
  have hpad : name.length + (zeroPad name.length).length = (name.length + 3) / 4 * 4 :=
    length_zeroPad
  refine ⟨?_, by decide, by decide, by decide, ?_⟩
  · simp only [Block.tlen, optsLength, map_cons, map_nil, sum_cons, sum_nil,
      length_nil]
    omega
  · rw [forall_mem_cons, forall_mem_singleton]
    exact ⟨⟨by dsimp only; omega, by dsimp only; omega, hpad⟩, ⟨by decide, by decide, rfl⟩⟩

theorem ok_epbOf {index : ℕ} (hc : c.Ok) : (epbOf c (index % 2 ^ 32)).Ok := by
  have hle := hc.buf_le
  have htime := c.time64.toNat_lt
  have hpad : c.buf.length + (zeroPad c.buf.length).length = (c.buf.length + 3) / 4 * 4 :=
    length_zeroPad
  refine ⟨?_, by omega, by omega, by omega, by omega, hpad, by simp⟩
  rw [Block.tlen, optsLength, map_nil, sum_nil]
  omega

theorem ok_callsBlocks {calls : List WriteCall} (hcalls : ∀ c ∈ calls, c.Ok) :
    ∀ b ∈ callsBlocks names calls, b.Ok := by
  induction calls generalizing names with
  | nil => simp [callsBlocks]
  | cons c cs ih =>
    rw [forall_mem_cons] at hcalls
    rw [callsBlocks, forall_mem_append]
    refine ⟨?_, ih hcalls.2⟩
    rw [callBlocks]
    split_ifs
    · rw [forall_mem_singleton]
      exact ok_epbOf hcalls.1
    · rw [forall_mem_cons, forall_mem_singleton]
      exact ⟨ok_idbOf hcalls.1.ifname_le, ok_epbOf hcalls.1⟩

theorem encodeFile_callBlocks_append {bs : List Block} :
    encodeFile e false (callBlocks names c ++ bs) = encodeFile e false (callBlocks names c) ++
      encodeFile e false bs := by
  rw [callBlocks]
  split_ifs
  all_goals
    simp only [cons_append, nil_append, encodeFile, append_nil, append_assoc]
    rfl

/-! ## The table of interfaces -/

/-- The hash table has the names of the interfaces, in the order in which they are described, with
their indices. -/
structure Table (stringHash : List UInt8 → ℕ) (ctx : OutCtx) (names : List (List UInt8)) :
  Prop where
  next : ctx.nextIndex = names.length % 2 ^ 32
  find : ∀ name, ((ctx.buckets (stringHash name % 1024)).find? fun x => x.1 = name) =
    if name ∈ names then some (name, names.idxOf name % 2 ^ 32) else none

theorem Table.init : Table stringHash (outCtxInit e) [] where
  next := rfl
  find := fun name => by simp [outCtxInit]

/-- A call looks up the name and adds it if it is new. -/
theorem Table.write {ctx : OutCtx} (h : Table stringHash ctx names) (hc : c.Ok) :
    ∃ ctx', outCtxWrite e stringHash ctx c.buf c.time64 c.now c.ifname = some ctx' ∧
      Table stringHash ctx' (addName names c.ifname) ∧
      ctx'.f = ctx.f ++ encodeFile e false (callBlocks names c) := by
  unfold outCtxWrite
  dsimp only
  rw [h.find c.ifname]
  by_cases hmem : c.ifname ∈ names
  · rw [if_pos hmem]
    dsimp only
    rw [writePacket_eq hc, some_bind, addName, if_pos hmem, callBlocks, if_pos hmem]
    refine ⟨_, rfl, ⟨h.next, h.find⟩, ?_⟩
    rw [encodeFile, encodeFile, append_nil]
  · rw [if_neg hmem]
    dsimp only
    rw [writeIfname_eq hc.ifname_pos hc.ifname_le, some_bind, writePacket_eq hc, some_bind, addName,
      if_neg hmem, callBlocks, if_neg hmem, h.next]
    refine ⟨_, rfl, ⟨?_, ?_⟩, ?_⟩
    · dsimp only
      rw [length_append, length_singleton]
      omega
    · intro name
      dsimp only
      by_cases hname : name = c.ifname
      · subst hname
        rw [update_self, find?_cons_of_pos (by simp), if_pos (by simp), idxOf_append_of_notMem hmem]
        simp
      · have hkeep : (update ctx.buckets (stringHash c.ifname % 1024)
            ((c.ifname, names.length % 2 ^ 32) :: ctx.buckets (stringHash c.ifname % 1024))
            (stringHash name % 1024)).find? (fun x => x.1 = name) =
            (ctx.buckets (stringHash name % 1024)).find? fun x => x.1 = name := by
          by_cases hbucket : stringHash name % 1024 = stringHash c.ifname % 1024
          · rw [hbucket, update_self, find?_cons_of_neg (by simpa using Ne.symm hname)]
          · rw [update_of_ne hbucket]
        rw [hkeep, h.find name]
        by_cases hold : name ∈ names
        · rw [if_pos hold, if_pos (mem_append_left _ hold), idxOf_append_of_mem hold]
        · rw [if_neg hold, if_neg (by simp [hold, hname])]
    · dsimp only
      rw [encodeFile, encodeFile, encodeFile, append_nil, append_assoc]
      rfl

/-- The file after any calls. -/
theorem writeCalls_eq {ctx : OutCtx} {calls : List WriteCall} (h : Table stringHash ctx names)
    (hcalls : ∀ c ∈ calls, c.Ok) :
    ∃ ctx', writeCalls e stringHash ctx calls = some ctx' ∧
      ctx'.f = ctx.f ++ encodeFile e false (callsBlocks names calls) := by
  induction calls generalizing ctx names with
  | nil => exact ⟨ctx, rfl, by rw [callsBlocks, encodeFile, append_nil]⟩
  | cons c cs ih =>
    rw [forall_mem_cons] at hcalls
    obtain ⟨ctx1, hwrite, htable, hf⟩ := h.write hcalls.1
    obtain ⟨ctx2, hwrites, hfs⟩ := ih htable hcalls.2
    refine ⟨ctx2, ?_, ?_⟩
    · rw [writeCalls, foldlM_cons, hwrite, some_bind]
      exact hwrites
    · rw [hfs, hf, callsBlocks, encodeFile_callBlocks_append, append_assoc]

end Pptk.Mypcap
