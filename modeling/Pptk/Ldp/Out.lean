import Pptk.Mypcap.Classic

/-!
# Output queues that write capture files

Model of the output queues in `ldp/ldppcap.c`. What the file system does is an input: a write of a
packet to a file may fail, and then the file may have any contents. The locks of the files are left
out, as a call takes them one at a time.

Main result: `inject_reports_iff`.
-/

namespace Pptk.Ldp

open Iphdr Mypcap List Option

/-! ## Queues and files -/

/-- `struct ldp_out_queue_pcap` (ldppcap.c:32-37), with the files themselves. -/
structure OutQueuePcap where
  ifname : List UInt8
  regular : Option (List UInt8)
  ng : Option OutCtx

/-- What happens in a write: whether a file operation fails, the file after a write that fails, and
the time. -/
structure FileIo (σ : Type) where
  fails : Bool
  after : σ
  now : UInt64

/-- What happens in the writes of a packet. -/
structure WriteIo where
  regular : FileIo (List UInt8)
  ng : FileIo OutCtx

section Inject

variable (e : Endian) (stringHash : List UInt8 → ℕ)

/-- `EIO`. -/
def eio : ℤ := 5

/-- What a writer returns and the file that it leaves, with its result if no file operation fails.
-/
def FileIo.ret {σ : Type} (io : FileIo σ) (result : Option σ) : ℤ × σ :=
  match io.fails, result with
  | false, some f => (0, f)
  | _, _ => (-eio, io.after)

/-- `pcap_out_ctx_write` (mypcap.c:128-156) at the current time. -/
def pcapOutCtxWriteRet (io : FileIo (List UInt8)) (f buf : List UInt8) : ℤ × List UInt8 :=
  io.ret (pcapOutCtxWrite e f buf 0 io.now)

/-- `pcapng_out_ctx_write` (mypcapng.c:167-243) at the current time. -/
def pcapngOutCtxWriteRet (io : FileIo OutCtx) (ctx : OutCtx) (buf ifname : List UInt8) :
    ℤ × OutCtx :=
  io.ret (outCtxWrite e stringHash ctx buf 0 io.now ifname)

/-- A packet is written to the open files: `err` and the queue (ldppcap.c:454-479, 532-554). -/
def injectOne (io : WriteIo) (q : OutQueuePcap) (buf : List UInt8) : ℤ × OutQueuePcap :=
  let (err, regular) : ℤ × Option (List UInt8) :=
    match q.regular with
    | none => (0, none)
    | some f =>
      let (ret, f) := pcapOutCtxWriteRet e io.regular f buf
      (if ret ≠ 1 then -1 else 0, some f)
  let (err, ng) : ℤ × Option OutCtx :=
    match q.ng with
    | none => (err, none)
    | some ctx =>
      let (ret, ctx) := pcapngOutCtxWriteRet e stringHash io.ng ctx buf q.ifname
      (if ret ≠ 1 then -1 else err, some ctx)
  (err, ⟨q.ifname, regular, ng⟩)

/-- The loop over the packets from number `i` on (ldppcap.c:452-485). -/
def injectLoop (io : ℕ → WriteIo) (num : ℕ) :
    ℕ → List (List UInt8) → OutQueuePcap → ℤ × OutQueuePcap
  | _, [], q => (num, q)
  | i, buf :: bufs, q =>
    let (err, q) := injectOne e stringHash (io i) q buf
    if err ≠ 0 then (if i = 0 then err else i, q) else injectLoop io num (i + 1) bufs q

/-- `ldp_out_queue_inject_pcap` (ldppcap.c:438-486). -/
def inject (io : ℕ → WriteIo) (q : OutQueuePcap) (packets : List (List UInt8)) : ℤ × OutQueuePcap :=
  if packets.length = 0 ∨ q.regular = none ∧ q.ng = none then (0, q)
  else injectLoop e stringHash io packets.length 0 packets q

/-- The chunks of a packet are copied to the array `buf` from index `cur` on (ldppcap.c:525-531). -/
def gather (buf : List UInt8) (cur : ℕ) : List (List UInt8) → List UInt8 × ℕ
  | [] => (buf, cur)
  | iov :: iovs => gather (buf.take cur ++ (iov ++ buf.drop (cur + iov.length)))
    (cur + iov.length) iovs

/-- The length of a packet (ldppcap.c:502-507). -/
def chunkLen (iovs : List (List UInt8)) : ℕ := iovs.foldl (fun curlen iov => curlen + iov.length) 0

/-- The length of the longest packet (ldppcap.c:499-512). -/
def chunkMaxlen (packets : List (List (List UInt8))) : ℕ :=
  packets.foldl (fun maxlen iovs => if chunkLen iovs > maxlen then chunkLen iovs else maxlen) 0

/-- The loop over the packets given as chunks (ldppcap.c:522-560). -/
def injectChunkLoop (io : ℕ → WriteIo) (num : ℕ) :
    List UInt8 → ℕ → List (List (List UInt8)) → OutQueuePcap → ℤ × OutQueuePcap
  | _, _, [], q => (num, q)
  | buf, i, iovs :: packets, q =>
    let (buf, cur) := gather buf 0 iovs
    let (err, q) := injectOne e stringHash (io i) q (buf.take cur)
    if err ≠ 0 then (if i = 0 then err else i, q) else injectChunkLoop io num buf (i + 1) packets q

/-- `ldp_out_queue_inject_chunk_pcap` (ldppcap.c:488-561); `stack` is what the array on the stack
holds at first. -/
def injectChunk (stack : ℕ → UInt8) (io : ℕ → WriteIo) (q : OutQueuePcap)
    (packets : List (List (List UInt8))) : ℤ × OutQueuePcap :=
  let buf := (range (chunkMaxlen packets)).map stack
  if packets.length = 0 ∨ q.regular = none ∧ q.ng = none then (0, q)
  else injectChunkLoop e stringHash io packets.length buf 0 packets q

/-! ## Chunks -/

theorem gather_eq {buf : List UInt8} {cur : ℕ} {iovs : List (List UInt8)}
    (h : cur + iovs.flatten.length ≤ buf.length) :
    (gather buf cur iovs).1.length = buf.length ∧
      (gather buf cur iovs).1.take (gather buf cur iovs).2 = buf.take cur ++ iovs.flatten := by
  induction iovs generalizing buf cur with
  | nil => exact ⟨rfl, by rw [gather, flatten_nil, append_nil]⟩
  | cons iov iovs ih =>
    rw [flatten_cons, length_append] at h
    have hlen : (buf.take cur ++ (iov ++ buf.drop (cur + iov.length))).length = buf.length := by
      rw [length_append, length_append, length_take, length_drop]
      omega
    have htake : (buf.take cur ++ (iov ++ buf.drop (cur + iov.length))).take (cur + iov.length) =
      buf.take cur ++ iov := by
      rw [← append_assoc]
      apply take_left'
      rw [length_append, length_take]
      omega
    obtain ⟨hlength, hbytes⟩ :=
      ih (by rw [hlen]; omega : cur + iov.length + iovs.flatten.length ≤ _)
    rw [htake, append_assoc, ← flatten_cons] at hbytes
    exact ⟨hlength.trans hlen, hbytes⟩

theorem chunkLen_eq (iovs : List (List UInt8)) : chunkLen iovs = iovs.flatten.length := by
  have hsum : ∀ n : ℕ, iovs.foldl (fun curlen iov => curlen + iov.length) n =
    n + iovs.flatten.length := by
    induction iovs with
    | nil => exact fun n => rfl
    | cons iov iovs ih =>
      intro n
      rw [foldl_cons, ih, flatten_cons, length_append, Nat.add_assoc]
  rw [chunkLen, hsum, Nat.zero_add]

theorem le_chunkMaxlen {packets : List (List (List UInt8))} :
    ∀ iovs ∈ packets, iovs.flatten.length ≤ chunkMaxlen packets := by
  have hmax : ∀ n : ℕ,
      n ≤ packets.foldl (fun maxlen iovs => if chunkLen iovs > maxlen then chunkLen iovs
        else maxlen) n ∧
      ∀ iovs ∈ packets, iovs.flatten.length ≤
        packets.foldl (fun maxlen iovs => if chunkLen iovs > maxlen then chunkLen iovs
          else maxlen) n := by
    induction packets with
    | nil => exact fun n => ⟨le_rfl, fun iovs h => absurd h not_mem_nil⟩
    | cons iovs packets ih =>
      intro n
      obtain ⟨hle, hall⟩ := ih (if chunkLen iovs > n then chunkLen iovs else n)
      have hcur : n ≤ (if chunkLen iovs > n then chunkLen iovs else n) ∧
          iovs.flatten.length ≤ if chunkLen iovs > n then chunkLen iovs else n := by
        rw [chunkLen_eq]
        split_ifs <;> omega
      rw [foldl_cons, forall_mem_cons]
      exact ⟨hcur.1.trans hle, hcur.2.trans hle, hall⟩
  exact (hmax 0).2

variable {q : OutQueuePcap} {α : Type}

theorem injectChunkLoop_eq {io : ℕ → WriteIo} {num i : ℕ} {buf : List UInt8}
    {packets : List (List (List UInt8))} (h : ∀ iovs ∈ packets, iovs.flatten.length ≤ buf.length) :
    injectChunkLoop e stringHash io num buf i packets q =
      injectLoop e stringHash io num i (packets.map flatten) q := by
  induction packets generalizing buf i q with
  | nil => rfl
  | cons iovs packets ih =>
    rw [forall_mem_cons] at h
    obtain ⟨hlen, hbytes⟩ :=
      gather_eq (by rw [Nat.zero_add]; exact h.1 : 0 + iovs.flatten.length ≤ buf.length)
    rw [take_zero, nil_append] at hbytes
    rw [map_cons, injectLoop, injectChunkLoop]
    dsimp only
    rw [hbytes, ih (by rw [hlen]; exact h.2)]

/-- Chunks are injected as the packets that they make up. -/
theorem injectChunk_eq (stack : ℕ → UInt8) (io : ℕ → WriteIo) (q : OutQueuePcap)
    (packets : List (List (List UInt8))) :
    injectChunk e stringHash stack io q packets = inject e stringHash io q
      (packets.map flatten) := by
  rw [injectChunk, inject, length_map, injectChunkLoop_eq e stringHash fun iovs h => ?_]
  rw [length_map, length_range]
  exact le_chunkMaxlen iovs h

/-! ## What a call is to say -/

/-- The calls of a writer are made for an open file, and all of them succeed; an index at which
`fails` holds does not. -/
def appendTo {σ α : Type} (fails : ℕ → Bool) (write : σ → α → Option σ) (calls : List α) :
    Option σ → Option (Option σ)
  | none => some none
  | some f => if ∃ i < calls.length, fails i = true then none else (calls.foldlM write f).map some

/-- The packets are appended in order to every open file, if all writes succeed. -/
def appendAll (io : ℕ → WriteIo) (q : OutQueuePcap) (packets : List (List UInt8)) :
    Option OutQueuePcap := do
  let regular ← appendTo (fun i => (io i).regular.fails)
    (fun f (c : PcapWrite) => pcapOutCtxWrite e f c.buf c.time64 c.now)
    (packets.zipIdx.map fun (buf, i) => ⟨buf, 0, (io i).regular.now⟩) q.regular
  let ng ← appendTo (fun i => (io i).ng.fails)
    (fun ctx (c : WriteCall) => outCtxWrite e stringHash ctx c.buf c.time64 c.now c.ifname)
    (packets.zipIdx.map fun (buf, i) => ⟨buf, 0, (io i).ng.now, q.ifname⟩) q.ng
  some ⟨q.ifname, regular, ng⟩

/-- The first write that fails is for packet `i`. -/
def FirstFails (io : ℕ → WriteIo) (q : OutQueuePcap) (packets : List (List UInt8)) (i : ℕ) : Prop :=
  i < packets.length ∧ (appendAll e stringHash io q (packets.take i)).isSome ∧
    appendAll e stringHash io q (packets.take (i + 1)) = none

/-- What a call returned, and the files that it left, are right: everything is written and counted,
or the number of the packet is returned for which a write failed, and an error for the first packet.
-/
structure Reports (io : ℕ → WriteIo) (q : OutQueuePcap) (packets : List (List UInt8))
  (out : ℤ × OutQueuePcap) : Prop where
  all : ∀ q', appendAll e stringHash io q packets = some q' → out = ((packets.length : ℤ), q')
  first : ∀ i, FirstFails e stringHash io q packets i → if i = 0 then out.1 < 0 else out.1 = i

theorem take_zipIdx (l : List α) (i k : ℕ) : (l.zipIdx k).take i = (l.take i).zipIdx k := by
  induction l generalizing i k with
  | nil => simp
  | cons a l ih =>
    cases i with
    | zero => rfl
    | succ i =>
      rw [zipIdx_cons, take_succ_cons, take_succ_cons, zipIdx_cons, ih]

theorem foldlM_take {σ : Type} {write : σ → α → Option σ} {calls : List α} {f f' : σ}
    (h : calls.foldlM write f = some f') (i : ℕ) : ((calls.take i).foldlM write f).isSome := by
  rw [← take_append_drop i calls, foldlM_append] at h
  obtain ⟨f'', hf, -⟩ := bind_eq_some_iff.mp h
  rw [hf]
  rfl

theorem appendTo_take {σ : Type} {fails : ℕ → Bool} {write : σ → α → Option σ} {calls : List α}
    {file : Option σ} {file' : Option σ} (h : appendTo fails write calls file = some file')
    (i : ℕ) : (appendTo fails write (calls.take i) file).isSome := by
  cases file with
  | none => rfl
  | some f =>
    unfold appendTo at h ⊢
    dsimp only at h ⊢
    split_ifs at h with hfails
    obtain ⟨f', hf, -⟩ := map_eq_some_iff.mp h
    rw [if_neg, isSome_map]
    · exact foldlM_take hf i
    · rintro ⟨j, hj, hfail⟩
      exact hfails ⟨j, hj.trans_le (length_take_le' i calls), hfail⟩

/-- If all packets are written, so are the first ones. -/
theorem appendAll_take {io : ℕ → WriteIo} {q' : OutQueuePcap} {packets : List (List UInt8)}
    (h : appendAll e stringHash io q packets = some q') (i : ℕ) :
    (appendAll e stringHash io q (packets.take i)).isSome := by
  unfold appendAll at h ⊢
  obtain ⟨regular, hregular, h⟩ := bind_eq_some_iff.mp h
  obtain ⟨ng, hng, -⟩ := bind_eq_some_iff.mp h
  obtain ⟨regular', hregular'⟩ := isSome_iff_exists.mp (appendTo_take hregular i)
  obtain ⟨ng', hng'⟩ := isSome_iff_exists.mp (appendTo_take hng i)
  rw [← map_take, take_zipIdx] at hregular' hng'
  rw [hregular', hng']
  rfl

theorem appendAll_nil (io : ℕ → WriteIo) (q : OutQueuePcap) :
    appendAll e stringHash io q [] = some q := by
  obtain ⟨ifname, regular, ng⟩ := q
  cases regular <;> cases ng <;> simp [appendAll, appendTo]

/-! ## What a call says -/

/-- Both writers return 0 on success, which is taken for an error. -/
theorem injectOne_ne (io : WriteIo) (hq : q.regular ≠ none ∨ q.ng ≠ none) (buf : List UInt8) :
    (injectOne e stringHash io q buf).1 = -1 := by
  have hret : ∀ {σ : Type} (io : FileIo σ) (result : Option σ), (io.ret result).1 ≠ 1 := by
    intro σ io result
    unfold FileIo.ret
    split
    · exact (by decide : (0 : ℤ) ≠ 1)
    · exact (by decide : -eio ≠ 1)
  obtain ⟨ifname, regular, ng⟩ := q
  unfold injectOne pcapOutCtxWriteRet pcapngOutCtxWriteRet
  cases regular with
  | none =>
    cases ng with
    | none => exact absurd hq (by simp)
    | some ctx => exact if_pos (hret _ _)
  | some f =>
    cases ng with
    | none => exact if_pos (hret _ _)
    | some ctx => exact if_pos (hret _ _)

theorem inject_cons (io : ℕ → WriteIo) (hq : q.regular ≠ none ∨ q.ng ≠ none) (buf : List UInt8)
    (bufs : List (List UInt8)) : (inject e stringHash io q (buf :: bufs)).1 = -1 := by
  have hopen : ¬(q.regular = none ∧ q.ng = none) := fun h => hq.elim (· h.1) (· h.2)
  have herr := injectOne_ne e stringHash (io 0) hq buf
  rw [inject, if_neg (not_or.mpr ⟨by simp, hopen⟩), injectLoop]
  dsimp only
  rw [herr, if_pos (by decide), if_pos rfl]

/-- Chunks and packets: what a call says is right exactly if there are no packets or a write of the
first packet fails. -/
theorem inject_reports_iff (stack : ℕ → UInt8) (io : ℕ → WriteIo) (q : OutQueuePcap)
    (hq : q.regular ≠ none ∨ q.ng ≠ none) :
    (∀ packets, Reports e stringHash io q packets (inject e stringHash io q packets) ↔
      packets = [] ∨ FirstFails e stringHash io q packets 0) ∧
    ∀ chunks, Reports e stringHash io q (chunks.map flatten)
      (injectChunk e stringHash stack io q chunks) ↔
      chunks = [] ∨ FirstFails e stringHash io q (chunks.map flatten) 0 := by
  have key : ∀ packets, Reports e stringHash io q packets (inject e stringHash io q packets) ↔
      packets = [] ∨ FirstFails e stringHash io q packets 0 := by
    intro packets
    cases packets with
    | nil =>
      refine iff_of_true ⟨?_, ?_⟩ (.inl rfl)
      · intro q' h
        rw [appendAll_nil] at h
        rw [← some.inj h]
        rfl
      · intro i h
        exact absurd h.1 (Nat.not_lt_zero i)
    | cons buf bufs =>
      have hret := inject_cons e stringHash io hq buf bufs
      constructor
      · intro h
        right
        -- if some write fails, take the first; it is not for a later packet, as -1 is returned
        cases hall : appendAll e stringHash io q (buf :: bufs) with
        | some q' =>
          have := congrArg Prod.fst (h.all q' hall)
          rw [hret] at this
          simp at this
          omega
        | none =>
          have hex : ∃ n, appendAll e stringHash io q ((buf :: bufs).take n) = none :=
            ⟨_, by rw [take_length]; exact hall⟩
          have hle : Nat.find hex ≤ (buf :: bufs).length :=
            Nat.find_min' hex (by rw [take_length]; exact hall)
          have hspec := Nat.find_spec hex
          have hmin : ∀ m < Nat.find hex, appendAll e stringHash io q ((buf :: bufs).take m) ≠
            none := fun m hm => Nat.find_min hex hm
          generalize Nat.find hex = n at hle hspec hmin
          cases n with
          | zero =>
            rw [take_zero, appendAll_nil] at hspec
            exact absurd hspec (by simp)
          | succ i =>
            have hfirst : FirstFails e stringHash io q (buf :: bufs) i :=
              ⟨hle, isSome_iff_ne_none.mpr (hmin i (Nat.lt_succ_self i)), hspec⟩
            by_cases hi : i = 0
            · exact hi ▸ hfirst
            · have := h.first i hfirst
              rw [if_neg hi, hret] at this
              omega
      · rintro (h | ⟨-, -, hnone⟩)
        · exact absurd h (cons_ne_nil buf bufs)
        refine ⟨?_, ?_⟩
        · intro q' hall
          have := appendAll_take e stringHash hall 1
          rw [hnone] at this
          exact absurd this (by simp)
        · intro i hi
          by_cases hi0 : i = 0
          · rw [if_pos hi0, hret]
            decide
          · obtain ⟨q', hq'⟩ := isSome_iff_exists.mp hi.2.1
            have := appendAll_take e stringHash hq' 1
            rw [take_take, min_eq_left (by omega : 1 ≤ i), hnone] at this
            exact absurd this (by simp)
  refine ⟨key, ?_⟩
  intro chunks
  rw [injectChunk_eq, key, map_eq_nil_iff]

end Inject

/-! ## A queue with a pcap file -/

/-- Writes to the pcap file that fail or not. -/
def sampleIo (fails : Bool) : WriteIo := ⟨⟨fails, [], 1⟩, ⟨false, outCtxInit .little, 1⟩⟩

/-- A queue with an empty pcap file. -/
def sampleQueue : OutQueuePcap := ⟨[112], some [], none⟩

/-- The write of the first of two packets fails, and so does the call. -/
theorem inject_reports_iff_first_fails :
    (sampleQueue.regular ≠ none ∨ sampleQueue.ng ≠ none) ∧
      Reports .little (fun _ => 0) (fun _ => sampleIo true) sampleQueue [[1], [2]]
        (inject .little (fun _ => 0) (fun _ => sampleIo true) sampleQueue [[1], [2]]) := by
  have hopen : sampleQueue.regular ≠ none ∨ sampleQueue.ng ≠ none := .inl (some_ne_none [])
  refine ⟨hopen, ((inject_reports_iff .little (fun _ => 0) (fun _ => 0)
    (fun _ => sampleIo true) sampleQueue hopen).1
    [[1], [2]]).mpr (.inr ⟨by decide, ?_, ?_⟩)⟩
  · rw [take_zero, appendAll_nil]
    rfl
  · rfl

/-- One packet is written, and an error is returned. -/
theorem written_packet_reported_as_error :
    inject .little (fun _ => 0) (fun _ => sampleIo false) sampleQueue [[1]] =
        (-1, ⟨[112], pcapWriteCalls .little [] [⟨[1], 0, 1⟩], none⟩) ∧
      ¬Reports .little (fun _ => 0) (fun _ => sampleIo false) sampleQueue [[1]]
        (inject .little (fun _ => 0) (fun _ => sampleIo false) sampleQueue [[1]]) := by
  have hinject : inject .little (fun _ => 0) (fun _ => sampleIo false) sampleQueue [[1]] =
      (-1, ⟨[112], pcapWriteCalls .little [] [⟨[1], 0, 1⟩], none⟩) := rfl
  refine ⟨hinject, fun h => ?_⟩
  have hall := h.all ⟨[112], pcapWriteCalls .little [] [⟨[1], 0, 1⟩], none⟩ rfl
  rw [hinject] at hall
  exact absurd (congrArg Prod.fst hall) (by decide)

end Pptk.Ldp
