import Pptk.Iphdr.DnsAnswers

/-!
# Writing DNS messages

Model of the functions of `iphdr/dnshdr.c` that write a message with compressed names. A name is a C
string of labels with dots between them, and perhaps a dot at its end.

Main result: `dnsPutNextQr_spec`.
-/

namespace Pptk.Iphdr

open Lib List

/-! ## Model -/

/-- The part of a string before the first dot, and the part after it. -/
def splitLabel (s : List UInt8) : List UInt8 × List UInt8 :=
  (s.takeWhile (· ≠ 46), (s.dropWhile (· ≠ 46)).drop 1)

/-- A pointer at `j` is followed (dnshdr.c:220-230). -/
def memdnsJump (m : Mem) (off j : ℕ) : Option ℕ :=
  if IsPointer m j then if j + 1 ≥ off then none else some (pointerAt m j) else some j

/-- The inner loop of `memdns` (dnshdr.c:204-270): whether the string `s` is found at `j`. Each
iteration takes a label from the string. -/
def memdnsAt (m : Mem) (off : ℕ) : ℕ → ℕ → List UInt8 → Bool
  | 0, _, _ => false
  | fuel + 1, j, s =>
    let label := (splitLabel s).1
    let u8 := label.length % 256
    if j ≥ off then false
    else
      match memdnsJump m off j with
      | none => false
      | some j =>
        if j ≥ off then false
        else if (m j).toNat ≠ u8 then false
        else if label = [] then true
        else if j + 1 + u8 ≥ off then false
        else if bytesAt m (j + 1) u8 ≠ label.take u8 then false
        else memdnsAt m off fuel (j + 1 + u8) (splitLabel s).2

/-- The number of bytes that `memdns` reckons with for a name (dnshdr.c:183). -/
def dnsstrlen (s : List UInt8) : ℕ := if s = [] then 1 else s.length + 2

/-- `memdns` (dnshdr.c:180-273): the first place before `off` where the name is found. -/
def memdns (m : Mem) (off : ℕ) (dns : List UInt8) : Option ℕ :=
  if dnsstrlen dns > off then none
  else (range (off + 1)).find? fun i => memdnsAt m off (dns.length + 1) i dns

/-- `memcpy` to the message. -/
def writeBytes (m : Mem) (i : ℕ) (l : List UInt8) : Mem :=
  fun j => if i ≤ j ∧ j < i + l.length then l.getD (j - i) 0 else m j

/-- The place to which a pointer is written for the name `buf` (dnshdr.c:295-296, 354-355). -/
def matchoff (m : Mem) (off plen : ℕ) (buf : List UInt8) : Option ℕ :=
  (memdns m off buf).filter fun k => (splitLabel buf).1 ≠ [] ∧ k < 16384 ∧ off + 2 ≤ plen

/-- The loop of `dns_put_next` and `dns_put_next_qr` (dnshdr.c:288-321, 347-380), which writes the
name `buf`; `none` stands for `-EFAULT`. Each iteration takes a label from the string. -/
def putName (plen : ℕ) : ℕ → Mem → ℕ → List UInt8 → Option (Mem × ℕ)
  | 0, _, _, _ => none
  | fuel + 1, m, off, buf =>
    match matchoff m off plen buf with
    | some k => some (writeBytes m off [UInt8.ofNat (192 + k / 256), UInt8.ofNat k], off + 2)
    | none =>
      let label := (splitLabel buf).1
      if off + 1 + label.length > plen then none
      else
        let m := writeBytes m off (UInt8.ofNat label.length :: label)
        let off := off + 1 + label.length
        if label = [] then some (m, off) else putName plen fuel m off (splitLabel buf).2

/-- `dns_put_next_qr` (dnshdr.c:335-389): the message and `*off` after it. -/
def dnsPutNextQr (m : Mem) (off plen : ℕ) (buf : List UInt8) (qtype qclass : ℕ) :
    Option (Mem × ℕ) :=
  if off + buf.length + 2 + 4 > plen then none
  else
    (putName plen (buf.length + 1) m off buf).bind fun (m, off) =>
      if off + 4 > plen then none
      else some (hdrSet16n (hdrSet16n m off qtype) (off + 2) qclass, off + 4)

/-- `dns_put_next` (dnshdr.c:275-333). -/
def dnsPutNext (m : Mem) (off plen : ℕ) (buf : List UInt8) (qtype qclass ttl : ℕ)
    (rdata : List UInt8) : Option (Mem × ℕ) :=
  if off + buf.length + 2 + 10 + rdata.length > plen then none
  else
    (putName plen (buf.length + 1) m off buf).bind fun (m, off) =>
      if off + 10 + rdata.length > plen then none
      else
        let m := hdrSet16n m off qtype
        let m := hdrSet16n m (off + 2) qclass
        let m := hdrSet32n m (off + 4) ttl
        let m := hdrSet16n m (off + 8) rdata.length
        some (writeBytes m (off + 10) rdata, off + 10 + rdata.length)

/-! ## Bytes that are written -/

/-- The message is the same before `off`. -/
def SameBelow (off : ℕ) (m m' : Mem) : Prop := ∀ j, j < off → m' j = m j

section Bytes

variable {m m' m'' : Mem} {i off off' : ℕ} {l : List UInt8}

theorem SameBelow.trans (h : SameBelow off m m') (h' : SameBelow off' m' m'') (hle : off ≤ off') :
    SameBelow off m m'' := by
  intro j hj
  rw [h' j (by omega), h j hj]

theorem sameBelow_writeBytes : SameBelow i m (writeBytes m i l) := by
  intro j hj
  rw [writeBytes, if_neg (by omega)]

theorem sameBelow_hdrSet16n {v : ℕ} : SameBelow i m (hdrSet16n m i v) := by
  intro j hj
  exact hdrSet16n_of_ne (by omega) (by omega)

theorem writeBytes_add {k : ℕ} (hk : k < l.length) : writeBytes m i l (i + k) = l[k] := by
  rw [writeBytes, if_pos (by omega), Nat.add_sub_cancel_left]
  simp [getD, hk]

theorem bytesAt_congr {n : ℕ} (h : ∀ j, i ≤ j → j < i + n → m' j = m j) :
    bytesAt m' i n = bytesAt m i n := by
  apply map_congr_left
  intro j hj
  rw [mem_range] at hj
  exact h _ (by omega) (by omega)

theorem bytesAt_writeBytes : bytesAt (writeBytes m i l) i l.length = l := by
  apply ext_getElem
  · simp [bytesAt]
  · intro k h1 h2
    simp only [bytesAt, getElem_map, getElem_range]
    exact writeBytes_add h2

end Bytes

/-- A name is still there when only bytes after it have changed. -/
theorem DirectName.of_sameBelow {m m' : Mem} {off off' p e : ℕ} {ls : List (List UInt8)}
    (h : DirectName m off p e ls) (hsame : SameBelow off m m') (hle : off ≤ off') :
    DirectName m' off' p e ls := by
  induction h with
  | root hp h0 => exact .root (by omega) (by rw [hsame _ hp, h0])
  | @label p e ls h0 hlen hrest ih =>
    have hlt := hrest.wireName.lt
    have hp : m' p = m p := hsame p (by omega)
    have hbytes : bytesAt m' (p + 1) (m p).toNat = bytesAt m (p + 1) (m p).toNat :=
      bytesAt_congr fun j _ hj => hsame j (by omega)
    rw [← hbytes, ← hp]
    exact .label (by rwa [hp]) (by rwa [hp]) (by rwa [hp])
  | @pointer p e ls hptr hp h0 hlen hrest ih =>
    have hlt := hrest.wireName.lt
    have hp0 : m' p = m p := hsame p (by omega)
    have hp1 : m' (p + 1) = m (p + 1) := hsame (p + 1) hp
    have ht : pointerAt m' p = pointerAt m p := by rw [pointerAt, pointerAt, hp0, hp1]
    have hm : m' (pointerAt m p) = m (pointerAt m p) := hsame _ (by omega)
    have hbytes : bytesAt m' (pointerAt m p + 1) (m (pointerAt m p)).toNat =
        bytesAt m (pointerAt m p + 1) (m (pointerAt m p)).toNat :=
      bytesAt_congr fun j _ hj => hsame j (by omega)
    rw [← hbytes, ← hm, ← ht]
    refine .pointer ?_ (by omega) (by rwa [ht, hm]) (by rwa [ht, hm]) (by rwa [ht, hm])
    rwa [IsPointer, hp0]

/-! ## Names as strings -/

/-- A label that can be part of a name. -/
structure ValidLabel (l : List UInt8) : Prop where
  ne_nil : l ≠ []
  length_lt : l.length < 64
  zero_not_mem : 0 ∉ l
  dot_not_mem : 46 ∉ l

/-- The string for a name: dots between the labels, and at the end if `dot`. -/
def nameStr (dot : Bool) : List (List UInt8) → List UInt8
  | [] => []
  | [l] => l ++ if dot then [46] else []
  | l :: l' :: ls => l ++ 46 :: nameStr dot (l' :: ls)

theorem splitLabel_append {l s : List UInt8} (hl : 46 ∉ l) :
    splitLabel (l ++ 46 :: s) = (l, s) := by
  have hne : ∀ x ∈ l, decide (x ≠ 46) = true := by
    intro x hx
    exact decide_eq_true (ne_of_mem_of_not_mem hx hl)
  rw [splitLabel, takeWhile_append_of_pos hne, dropWhile_append_of_pos hne]
  simp

theorem splitLabel_of_not_mem {l : List UInt8} (hl : 46 ∉ l) : splitLabel l = (l, []) := by
  have hne : ∀ x ∈ l, decide (x ≠ 46) = true := by
    intro x hx
    exact decide_eq_true (ne_of_mem_of_not_mem hx hl)
  rw [splitLabel, takeWhile_eq_self_iff.mpr hne, dropWhile_eq_nil_iff.mpr hne, drop_nil]

theorem splitLabel_nameStr {dot : Bool} {l : List UInt8} {ls : List (List UInt8)} (hl : 46 ∉ l) :
    splitLabel (nameStr dot (l :: ls)) = (l, nameStr dot ls) := by
  cases ls with
  | nil =>
    cases dot with
    | false => simpa [nameStr] using splitLabel_of_not_mem hl
    | true => simpa [nameStr] using splitLabel_append (s := []) hl
  | cons l' ls => exact splitLabel_append hl

/-! ## Finding a name -/

/-- The place after a pointer at `j`, if there is one. -/
def jumpAt (m : Mem) (j : ℕ) : ℕ := if IsPointer m j then pointerAt m j else j

/-- The place after some labels that begin at `j`. -/
def afterLabels (m : Mem) : ℕ → List (List UInt8) → ℕ
  | j, [] => j
  | j, l :: ls => afterLabels m (jumpAt m j + 1 + l.length) ls

section Find

variable {m : Mem} {off fuel j : ℕ} {dot : Bool} {l : List UInt8} {ls : List (List UInt8)}

theorem memdnsJump_eq_some {j' : ℕ} (h : memdnsJump m off j = some j') :
    j' = jumpAt m j ∧ (IsPointer m j → j + 1 < off) := by
  unfold memdnsJump at h
  unfold jumpAt
  split_ifs at h with hptr hoff
  · rw [if_pos hptr]
    exact ⟨(Option.some.inj h).symm, fun _ => by omega⟩
  · rw [if_neg hptr]
    exact ⟨(Option.some.inj h).symm, fun h => absurd h hptr⟩

/-- What has been compared when a name is found: its first label. -/
theorem memdnsAt_cons (hl : ValidLabel l)
    (h : memdnsAt m off (fuel + 1) j (nameStr dot (l :: ls)) = true) :
    (IsPointer m j → j + 1 < off) ∧ (m (jumpAt m j)).toNat = l.length ∧
      bytesAt m (jumpAt m j + 1) l.length = l ∧
      memdnsAt m off fuel (jumpAt m j + 1 + l.length) (nameStr dot ls) = true := by
  have hlen := hl.length_lt
  have hmod : l.length % 256 = l.length := Nat.mod_eq_of_lt (by omega)
  simp only [memdnsAt, splitLabel_nameStr hl.dot_not_mem, hmod, take_length, if_neg hl.ne_nil] at h
  split_ifs at h with hj
  cases hjump : memdnsJump m off j with
  | none => simp [hjump] at h
  | some j' =>
    obtain ⟨rfl, hptr⟩ := memdnsJump_eq_some hjump
    simp only [hjump] at h
    split_ifs at h with hoff hm hend hbytes
    exact ⟨hptr, not_not.mp hm, not_not.mp hbytes, h⟩

theorem memdnsAt_nil (h : memdnsAt m off (fuel + 1) j (nameStr dot []) = true) :
    j < off ∧ m (jumpAt m j) = 0 := by
  have hsplit : splitLabel [] = ([], []) := rfl
  simp only [memdnsAt, nameStr, hsplit] at h
  split_ifs at h with hj
  cases hjump : memdnsJump m off j with
  | none => simp [hjump] at h
  | some j' =>
    obtain ⟨rfl, -⟩ := memdnsJump_eq_some hjump
    simp only [hjump] at h
    split_ifs at h with hoff hm
    · exact ⟨by omega, UInt8.toNat_inj.mp (by simpa using hm)⟩

/-- What `memdns` finds is the name, if there is no pointer after its last label. -/
theorem memdnsAt_spec (hls : ∀ l ∈ ls, ValidLabel l)
    (h : memdnsAt m off fuel j (nameStr dot ls) = true) (hend : ¬IsPointer m (afterLabels m j ls)) :
    ∃ e, DirectName m off j e ls := by
  induction ls generalizing fuel j with
  | nil =>
    cases fuel with
    | zero => simp [memdnsAt] at h
    | succ fuel =>
      obtain ⟨hj, h0⟩ := memdnsAt_nil h
      have hjump : jumpAt m j = j := if_neg hend
      rw [hjump] at h0
      exact ⟨j + 1, .root hj h0⟩
  | cons l ls ih =>
    cases fuel with
    | zero => simp [memdnsAt] at h
    | succ fuel =>
      have hl : ValidLabel l := hls l (by simp)
      obtain ⟨hptr, hm, hbytes, hrest⟩ := memdnsAt_cons hl h
      obtain ⟨e, hname⟩ := ih (fun l' hl' => hls l' (by simp [hl'])) hrest hend
      have hlen := hl.length_lt
      have h0 : m (jumpAt m j) ≠ 0 := by
        intro h0
        rw [h0] at hm
        exact hl.ne_nil (length_eq_zero_iff.mp hm.symm)
      rw [← hm] at hname hbytes
      rw [← hbytes]
      by_cases hp : IsPointer m j
      · have hjump : jumpAt m j = pointerAt m j := if_pos hp
        rw [hjump] at hm h0 hname ⊢
        exact ⟨j + 2, .pointer hp (hptr hp) h0 (by omega) hname⟩
      · have hjump : jumpAt m j = j := if_neg hp
        rw [hjump] at hm h0 hname ⊢
        exact ⟨e, .label h0 (by omega) hname⟩

end Find

/-! ## Writing a name -/

section PutName

variable {m m' : Mem} {off off' plen fuel k : ℕ} {dot : Bool} {ls : List (List UInt8)}
  {buf : List UInt8}

theorem matchoff_eq_some (h : matchoff m off plen buf = some k) :
    memdnsAt m off (buf.length + 1) k buf = true ∧ (splitLabel buf).1 ≠ [] ∧ k < 16384 ∧
      off + 2 ≤ plen := by
  obtain ⟨hmem, hk⟩ := Option.filter_eq_some_iff.mp h
  unfold memdns at hmem
  split_ifs at hmem
  have hfound := find?_some (p := fun i => memdnsAt m off (buf.length + 1) i buf) hmem
  exact ⟨hfound, of_decide_eq_true hk⟩

/-- Every pointer that is written for the labels leads to a label, and there is no pointer after the
last label of the name to which it leads. -/
def PointersDirect (plen : ℕ) (dot : Bool) : Mem → ℕ → List (List UInt8) → Prop
  | _, _, [] => True
  | m, off, l :: ls =>
    match matchoff m off plen (nameStr dot (l :: ls)) with
    | some k => ¬IsPointer m k ∧ ¬IsPointer m (afterLabels m k (l :: ls))
    | none =>
      PointersDirect plen dot (writeBytes m off (UInt8.ofNat l.length :: l)) (off + 1 + l.length) ls

instance decidablePointersDirect (plen : ℕ) (dot : Bool) :
    (m : Mem) → (off : ℕ) → (ls : List (List UInt8)) → Decidable (PointersDirect plen dot m off ls)
  | _, _, [] => isTrue trivial
  | m, off, l :: ls =>
    match h : matchoff m off plen (nameStr dot (l :: ls)) with
    | some k =>
      decidable_of_iff (¬IsPointer m k ∧ ¬IsPointer m (afterLabels m k (l :: ls))) (by
        simp only [PointersDirect, h])
    | none =>
      have := decidablePointersDirect plen dot (writeBytes m off (UInt8.ofNat l.length :: l))
        (off + 1 + l.length) ls
      decidable_of_iff (PointersDirect plen dot (writeBytes m off (UInt8.ofNat l.length :: l))
        (off + 1 + l.length) ls) (by simp only [PointersDirect, h])

theorem directName_writePointer {e : ℕ} (hk : k < 16384) (hptr : ¬IsPointer m k) (hls : ls ≠ [])
    (h : DirectName m off k e ls) :
    DirectName (writeBytes m off [UInt8.ofNat (192 + k / 256), UInt8.ofNat k])
      (off + 2) off (off + 2)
      ls := by
  have h' := h.of_sameBelow (sameBelow_writeBytes
    (l := [UInt8.ofNat (192 + k / 256), UInt8.ofNat k])) (Nat.le_add_right off 2)
  have hsame : writeBytes m off [UInt8.ofNat (192 + k / 256), UInt8.ofNat k] k = m k :=
    sameBelow_writeBytes k h.wireName.lt
  generalize hw : writeBytes m off [UInt8.ofNat (192 + k / 256), UInt8.ofNat k] = w at h' hsame ⊢
  have h0 : (w off).toNat = 192 + k / 256 := by
    have hb : w off = UInt8.ofNat (192 + k / 256) := by
      rw [← hw]
      exact writeBytes_add (k := 0) (by simp)
    rw [hb, UInt8.toNat_ofNat']
    omega
  have h1 : (w (off + 1)).toNat = k % 256 := by
    have hb : w (off + 1) = UInt8.ofNat k := by
      rw [← hw]
      exact writeBytes_add (k := 1) (by simp)
    rw [hb, UInt8.toNat_ofNat']
  have htarget : pointerAt w off = k := by
    rw [pointerAt, h0, h1]
    omega
  have hptr' : IsPointer w off := by
    rw [IsPointer, h0]
    omega
  cases h' with
  | root => exact absurd rfl hls
  | label hne hlen hrest =>
    have hname := DirectName.pointer hptr' (Nat.lt_succ_self (off + 1)) (by rwa [htarget])
      (by rwa [htarget]) (by rwa [htarget])
    rwa [htarget] at hname
  | pointer hp => exact absurd (by rwa [IsPointer, hsame] at hp) hptr

/-- The name that has been written can be read, if every pointer leads to a label. -/
theorem putName_spec (hls : ∀ l ∈ ls, ValidLabel l)
    (h : putName plen fuel m off (nameStr dot ls) = some (m', off'))
    (hdirect : PointersDirect plen dot m off ls) :
    DirectName m' off' off off' ls ∧ SameBelow off m m' := by
  induction ls generalizing fuel m off with
  | nil =>
    cases fuel with
    | zero => simp [putName] at h
    | succ fuel =>
      have hsplit : splitLabel (nameStr dot []) = ([], []) := rfl
      have hmatch : matchoff m off plen (nameStr dot []) = none := by
        rw [Option.eq_none_iff_forall_ne_some]
        intro k hk
        exact (matchoff_eq_some hk).2.1 rfl
      simp only [putName, hmatch, hsplit] at h
      split_ifs at h with hroom
      obtain ⟨rfl, rfl⟩ := Prod.mk.inj (Option.some.inj h)
      refine ⟨.root (Nat.lt_succ_self off) ?_, sameBelow_writeBytes⟩
      exact writeBytes_add (k := 0) (by simp)
  | cons l ls ih =>
    cases fuel with
    | zero => simp [putName] at h
    | succ fuel =>
      have hl : ValidLabel l := hls l (by simp)
      have hlen := hl.length_lt
      cases hmatch : matchoff m off plen (nameStr dot (l :: ls)) with
      | some k =>
        simp only [putName, hmatch] at h
        simp only [PointersDirect, hmatch] at hdirect
        obtain ⟨rfl, rfl⟩ := Prod.mk.inj (Option.some.inj h)
        obtain ⟨hfound, -, hk, -⟩ := matchoff_eq_some hmatch
        obtain ⟨e, hname⟩ := memdnsAt_spec hls hfound hdirect.2
        exact ⟨directName_writePointer hk hdirect.1 (by simp) hname, sameBelow_writeBytes⟩
      | none =>
        simp only [putName, hmatch, splitLabel_nameStr hl.dot_not_mem, if_neg hl.ne_nil] at h
        simp only [PointersDirect, hmatch] at hdirect
        split_ifs at h with hroom
        obtain ⟨hname, hsame⟩ := ih (fun l' hl' => hls l' (by simp [hl'])) h hdirect
        refine ⟨?_, sameBelow_writeBytes.trans hsame (by omega)⟩
        -- the label has been written before the rest of the name and is still there
        have hm : m' off = UInt8.ofNat l.length := by
          rw [hsame off (by omega)]
          exact writeBytes_add (k := 0) (by simp)
        have hm' : (m' off).toNat = l.length := by
          rw [hm, UInt8.toNat_ofNat']
          omega
        have hbytes : bytesAt m' (off + 1) l.length = l := by
          rw [bytesAt_congr fun j _ hj => hsame j (by omega)]
          apply ext_getElem
          · simp [bytesAt]
          · intro i h1 h2
            simp only [bytesAt, getElem_map, getElem_range]
            rw [Nat.add_assoc, Nat.add_comm 1 i, writeBytes_add (k := i + 1) (by simpa using h2)]
            simp
        have h0 : m' off ≠ 0 := by
          intro h0
          rw [h0] at hm'
          exact hl.ne_nil (length_eq_zero_iff.mp hm'.symm)
        have hdone := DirectName.label h0 (by omega) (by rwa [hm'])
        rwa [hm', hbytes] at hdone

end PutName

/-! ## Writing a question and a record -/

section Put

variable {m m' : Mem} {off off' plen : ℕ} {dot : Bool} {ls : List (List UInt8)} {buf : List UInt8}

theorem SameBelow.mono (h : SameBelow off m m') (hle : off' ≤ off) : SameBelow off' m m' :=
  fun j hj => h j (by omega)

theorem SameBelow.hdrGet16n {i : ℕ} (h : SameBelow off m m') (hi : i + 2 ≤ off) :
    hdrGet16n m' i = hdrGet16n m i :=
  hdrGet16n_congr (h i (by omega)) (h (i + 1) (by omega))

theorem SameBelow.hdrGet32n {i : ℕ} (h : SameBelow off m m') (hi : i + 4 ≤ off) :
    hdrGet32n m' i = hdrGet32n m i := by
  unfold Iphdr.hdrGet32n
  rw [h.hdrGet16n (by omega), h.hdrGet16n (by omega)]

theorem sameBelow_hdrSet32n {i v : ℕ} : SameBelow i m (hdrSet32n m i v) :=
  sameBelow_hdrSet16n.trans (sameBelow_hdrSet16n.mono (Nat.le_add_right i 2)) le_rfl

theorem hdrGet32n_hdrSet32n {i v : ℕ} : hdrGet32n (hdrSet32n m i v) i = v % 4294967296 := by
  have hlow : hdrGet16n (hdrSet32n m i v) i = hdrGet16n (hdrSet16n m i (v / 65536)) i :=
    sameBelow_hdrSet16n.hdrGet16n le_rfl
  rw [hdrGet32n, hlow, hdrGet16n_hdrSet16n, hdrSet32n, hdrGet16n_hdrSet16n]
  omega

/-- A question that has been written: its name ends at `e`, and its fields follow. -/
theorem dnsPutNextQr_spec {qtype qclass : ℕ} (hls : ∀ l ∈ ls, ValidLabel l)
    (h : dnsPutNextQr m off plen (nameStr dot ls) qtype qclass = some (m', off'))
    (hdirect : PointersDirect plen dot m off ls) :
    ∃ e, off' = e + 4 ∧ DirectName m' off' off e ls ∧ SameBelow off m m' ∧
      hdrGet16n m' e = qtype % 65536 ∧ hdrGet16n m' (e + 2) = qclass % 65536 := by
  unfold dnsPutNextQr at h
  split_ifs at h with hroom
  obtain ⟨⟨m1, e⟩, hput, h⟩ := Option.bind_eq_some_iff.mp h
  dsimp only at h
  split_ifs at h with hroom'
  obtain ⟨rfl, rfl⟩ := Prod.mk.inj (Option.some.inj h)
  obtain ⟨hname, hsame⟩ := putName_spec hls hput hdirect
  have hlt := hname.wireName.lt
  have hclass : SameBelow (e + 2) (hdrSet16n m1 e qtype)
      (hdrSet16n (hdrSet16n m1 e qtype) (e + 2) qclass) := sameBelow_hdrSet16n
  have hfields : SameBelow e m1 (hdrSet16n (hdrSet16n m1 e qtype) (e + 2) qclass) :=
    sameBelow_hdrSet16n.trans hclass (Nat.le_add_right e 2)
  refine ⟨e, rfl, hname.of_sameBelow hfields (by omega), hsame.trans hfields (by omega), ?_,
    hdrGet16n_hdrSet16n _ _ _⟩
  rw [hclass.hdrGet16n le_rfl, hdrGet16n_hdrSet16n]

/-- A name that has been written can be read, and so can the fields after it. -/
theorem dnsPutNext_spec {qtype qclass ttl : ℕ} {rdata : List UInt8} (hls : ∀ l ∈ ls, ValidLabel l)
    (h : dnsPutNext m off plen (nameStr dot ls) qtype qclass ttl rdata = some (m', off'))
    (hdirect : PointersDirect plen dot m off ls) :
    ∃ e, off' = e + 10 + rdata.length ∧ DirectName m' off' off e ls ∧ SameBelow off m m' ∧
      hdrGet16n m' e = qtype % 65536 ∧ hdrGet16n m' (e + 2) = qclass % 65536 ∧
      hdrGet32n m' (e + 4) = ttl % 4294967296 ∧ hdrGet16n m' (e + 8) = rdata.length % 65536 ∧
      bytesAt m' (e + 10) rdata.length = rdata := by
  unfold dnsPutNext at h
  split_ifs at h with hroom
  obtain ⟨⟨m1, e⟩, hput, h⟩ := Option.bind_eq_some_iff.mp h
  dsimp only at h
  split_ifs at h with hroom'
  obtain ⟨hm', rfl⟩ := Prod.mk.inj (Option.some.inj h)
  obtain ⟨hname, hsame⟩ := putName_spec hls hput hdirect
  have hlt := hname.wireName.lt
  -- the fields are written one after the other, so each keeps those before it
  generalize hm2 : hdrSet16n m1 e qtype = m2 at hm'
  generalize hm3 : hdrSet16n m2 (e + 2) qclass = m3 at hm'
  generalize hm4 : hdrSet32n m3 (e + 4) ttl = m4 at hm'
  generalize hm5 : hdrSet16n m4 (e + 8) rdata.length = m5 at hm'
  have h5 : SameBelow (e + 10) m5 m' := hm' ▸ sameBelow_writeBytes
  have h4 : SameBelow (e + 8) m4 m' := SameBelow.trans (hm5 ▸ sameBelow_hdrSet16n) h5 (by omega)
  have h3 : SameBelow (e + 4) m3 m' := SameBelow.trans (hm4 ▸ sameBelow_hdrSet32n) h4 (by omega)
  have h2 : SameBelow (e + 2) m2 m' := SameBelow.trans (hm3 ▸ sameBelow_hdrSet16n) h3 (by omega)
  have h1 : SameBelow e m1 m' := SameBelow.trans (hm2 ▸ sameBelow_hdrSet16n) h2 (by omega)
  refine ⟨e, rfl, hname.of_sameBelow h1 (by omega), hsame.trans h1 (by omega), ?_, ?_, ?_, ?_, ?_⟩
  · rw [h2.hdrGet16n le_rfl, ← hm2, hdrGet16n_hdrSet16n]
  · rw [h3.hdrGet16n le_rfl, ← hm3, hdrGet16n_hdrSet16n]
  · rw [h4.hdrGet32n le_rfl, ← hm4, hdrGet32n_hdrSet32n]
  · rw [h5.hdrGet16n le_rfl, ← hm5, hdrGet16n_hdrSet16n]
  · rw [← hm', bytesAt_writeBytes]

end Put

end Pptk.Iphdr
