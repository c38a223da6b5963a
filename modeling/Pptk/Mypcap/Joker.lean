import Pptk.Mypcap.Classic

/-!
# Capture files of both formats

Model of `mypcap/mypcapjoker.c`, which reads classic and pcapng files.

Main result: `pcapJokerCtxRead_of_eof`.
-/

namespace Pptk.Mypcap

open Iphdr Lib Option

/-! ## Model -/

/-- What reading depends on apart from the file: the byte order of the host, the memory of new
interfaces, and the conversion of binary times. -/
structure JokerEnv where
  e : Endian
  fresh : ℕ → ℕ → InInterface
  binaryTime : UInt64 → ℕ → UInt64

/-- `struct pcap_joker_ctx` (mypcapjoker.h:15-22), with the buffer of the caller. -/
inductive JokerCtx
  | ng (ctx : InCtx)
  | old (ctx : PcapInCtx) (buf : CallerBuf) (ifname : Option (List UInt8))

/-- How often the names of interfaces have been freed. The name of a classic file is never freed. -/
def JokerCtx.frees : JokerCtx → ℕ
  | .ng ctx => ctx.st.interfaces.frees
  | .old .. => 0

/-- What a call returns for a classic file. -/
def PcapRet.named (ifname : Option (List UInt8)) : PcapRet → ReadRet
  | .eof => .eof
  | .packet p => .packet ⟨p.data, p.len, p.snap, p.time64, ifname⟩
  | .error err => .error err

section Model

variable (env : JokerEnv)

/-- `pcap_joker_ctx_read` (mypcapjoker.c:23-41). For a classic file the name is also stored when
there is no packet; it is the same one in all calls. -/
def pcapJokerCtxRead : JokerCtx → Option (ReadRet × JokerCtx)
  | .ng ctx => (inCtxRead env.e env.fresh env.binaryTime ctx).map fun (ret, ctx) => (ret, .ng ctx)
  | .old ctx buf ifname =>
    let (ret, ctx, buf) := pcapInCtxRead env.e ctx buf
    some (ret.named ifname, .old ctx buf ifname)

/-- `pcap_joker_ctx_init_file` (mypcapjoker.c:43-62) at the time `now`. -/
def pcapJokerCtxInitFile (f : List UInt8) (enforceEthernet : Bool) (ifname : Option (List UInt8))
    (now : UInt64) (ar : ℕ → InInterface) (buf : CallerBuf) : Except Errno JokerCtx :=
  if f.head? = some 0x0a then .ok (.ng (inCtxInit f now ar buf))
  else (pcapInCtxInitFile env.e f enforceEthernet).map fun ctx => .old ctx buf ifname

/-- The calls return these packets, and then find the end of the file. -/
def reads : JokerCtx → List Packet → Bool
  | ctx, [] =>
    match pcapJokerCtxRead env ctx with
    | some (.eof, _) => true
    | _ => false
  | ctx, p :: ps =>
    match pcapJokerCtxRead env ctx with
    | some (.packet p', ctx') => decide (p' = p) && reads ctx' ps
    | _ => false

end Model

/-! ## The packets of a file -/

section Packets

variable {env : JokerEnv} {ctx ctx' : JokerCtx} {ps ps' : List Packet}

theorem f_of_readLoop_eof {e : Endian} {fresh : ℕ → ℕ → InInterface}
    {binaryTime : UInt64 → ℕ → UInt64} {fuel : ℕ} {ctx ctx' : InCtx}
    (h : readLoop e fresh binaryTime fuel ctx = some (.eof, ctx')) : ctx'.f = [] := by
  induction fuel generalizing ctx with
  | zero => cases h
  | succ fuel ih =>
    rw [readLoop] at h
    have hpacket : ∀ ctx (ret : Packet → ReadRet) r, (∀ p, ret p ≠ .eof) →
        some (packetRet ctx ret r) ≠ some (.eof, ctx') := by
      intro ctx ret r hret h
      rcases r with err | ⟨p, ctx''⟩
      · cases h
      · exact hret p (Prod.mk.inj (some.inj h)).1
    split at h
    · rw [← (Prod.mk.inj (some.inj h)).2]
    · dsimp only at h
      split_ifs at h
      · split at h
        · cases h
        · exact ih h
      · split at h
        · cases h
        · exact ih h
      · split at h
        · cases h
        · exact ih h
      · exact absurd h (hpacket _ _ _ fun p => by simp)
      · exact absurd h (hpacket _ _ _ fun p => by simp)

theorem of_pcapInCtxRead_eof {e : Endian} {ctx ctx' : PcapInCtx} {buf buf' : CallerBuf}
    (h : pcapInCtxRead e ctx buf = (.eof, ctx', buf')) :
    ctx' = { ctx with f := [] } ∧ buf' = buf := by
  rw [pcapInCtxRead] at h
  split at h
  · obtain ⟨-, h⟩ := Prod.mk.inj h
    obtain ⟨rfl, rfl⟩ := Prod.mk.inj h
    exact ⟨rfl, rfl⟩
  · dsimp only at h
    split at h <;> exact nomatch (Prod.mk.inj h).1

/-- At the end of the file nothing is left to read. -/
theorem pcapJokerCtxRead_of_eof (h : pcapJokerCtxRead env ctx = some (.eof, ctx')) :
    pcapJokerCtxRead env ctx' = some (.eof, ctx') := by
  cases ctx with
  | ng ctx =>
    obtain ⟨⟨ret, ⟨f, swap, st⟩⟩, hloop, heq⟩ := map_eq_some_iff.mp h
    obtain ⟨rfl, rfl⟩ := Prod.mk.inj heq
    obtain rfl : f = [] := f_of_readLoop_eof hloop
    rfl
  | old ctx buf ifname =>
    rw [pcapJokerCtxRead] at h
    rcases hread : pcapInCtxRead env.e ctx buf with ⟨ret, ctx'', buf'⟩
    rw [hread] at h
    obtain ⟨hret, rfl⟩ := Prod.mk.inj (some.inj h)
    cases ret with
    | eof =>
      obtain ⟨rfl, rfl⟩ := of_pcapInCtxRead_eof hread
      rfl
    | packet p => exact nomatch hret
    | error err => exact nomatch hret

theorem reads_nil_iff :
    reads env ctx [] = true ↔ ∃ ctx', pcapJokerCtxRead env ctx = some (.eof, ctx') := by
  rw [reads]
  constructor
  · intro h
    split at h
    · exact ⟨_, ‹_›⟩
    · exact nomatch h
  · rintro ⟨ctx', h⟩
    rw [h]

theorem reads_cons_iff {p : Packet} :
    reads env ctx (p :: ps) = true ↔
      ∃ ctx', pcapJokerCtxRead env ctx = some (.packet p, ctx') ∧ reads env ctx' ps = true := by
  rw [reads]
  constructor
  · intro h
    split at h
    · next p' ctx' heq =>
      obtain ⟨hp, hps⟩ := Bool.and_eq_true_iff.mp h
      exact ⟨ctx', of_decide_eq_true hp ▸ heq, hps⟩
    · exact nomatch h
  · rintro ⟨ctx', h, hps⟩
    rw [h]
    exact Bool.and_eq_true_iff.mpr ⟨decide_eq_true rfl, hps⟩

/-- The packets of a file are determined by its bytes. -/
theorem reads_unique (h : reads env ctx ps = true) (h' : reads env ctx ps' = true) : ps = ps' := by
  induction ps generalizing ctx ps' with
  | nil =>
    obtain ⟨c, hc⟩ := reads_nil_iff.mp h
    cases ps' with
    | nil => rfl
    | cons p' ps' =>
      obtain ⟨c', hc', -⟩ := reads_cons_iff.mp h'
      exact nomatch (Prod.mk.inj (some.inj (hc.symm.trans hc'))).1
  | cons p ps ih =>
    obtain ⟨c, hc, h⟩ := reads_cons_iff.mp h
    cases ps' with
    | nil =>
      obtain ⟨c', hc'⟩ := reads_nil_iff.mp h'
      exact nomatch (Prod.mk.inj (some.inj (hc.symm.trans hc'))).1
    | cons p' ps' =>
      obtain ⟨c', hc', h'⟩ := reads_cons_iff.mp h'
      obtain ⟨hp, rfl⟩ := Prod.mk.inj (some.inj (hc.symm.trans hc'))
      rw [ReadRet.packet.inj hp, ih h h']

open Classical in
/-- The packets that are still to be read, if the file can be read to its end. -/
noncomputable def unread (env : JokerEnv) (ctx : JokerCtx) : List Packet :=
  if h : ∃ ps, reads env ctx ps = true then h.choose else []

theorem unread_eq (h : reads env ctx ps = true) : unread env ctx = ps := by
  have hex : ∃ ps, reads env ctx ps = true := ⟨ps, h⟩
  rw [unread, dif_pos hex]
  exact reads_unique hex.choose_spec h

end Packets

end Pptk.Mypcap
