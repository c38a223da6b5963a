import Mathlib.Data.List.TakeWhile
import Pptk.Iphdr.Dns

/-!
# Names of DNS messages

What the loops that read a name do, in terms of the labels of the message. A label is found at a
position, or where a pointer at this position leads (`wireLabel`).

Main results: `nameLoop_returns_iff` and `dns_names_return_iff`.
-/

namespace Pptk.Iphdr

open Lib List

/-! ## Labels -/

/-- A label of the message: where its bytes are, and how many there are. -/
structure WireLabel where
  start : ℕ
  len : ℕ
deriving DecidableEq, Repr

/-- The position after a label. -/
def WireLabel.next (l : WireLabel) : ℕ := l.start + l.len

/-- There is a pointer at `p`. -/
def IsPointer (m : Mem) (p : ℕ) : Prop := 192 ≤ (m p).toNat

instance (m : Mem) (p : ℕ) : Decidable (IsPointer m p) := inferInstanceAs (Decidable (_ ≤ _))

/-- Where the pointer at `p` leads. -/
def pointerAt (m : Mem) (p : ℕ) : ℕ := (m p).toNat % 64 * 256 + (m (p + 1)).toNat

/-- The label that is read at `p`, if there is one and it ends before the packet does. Behind a
pointer any byte is taken for the length of a label. -/
def wireLabel (m : Mem) (plen p : ℕ) : Option WireLabel :=
  if (m p).toNat = 0 then none
  else if IsPointer m p then
    if p + 1 < plen ∧ pointerAt m p + 1 + (m (pointerAt m p)).toNat < plen then
      some ⟨pointerAt m p + 1, (m (pointerAt m p)).toNat⟩
    else none
  else if p + 1 + (m p).toNat < plen then some ⟨p + 1, (m p).toNat⟩
  else none

/-- The number of bytes at `p` that belong to the name itself. -/
def ownLen (m : Mem) (p : ℕ) : ℕ := if IsPointer m p then 2 else 1 + (m p).toNat

/-- The string with a label appended. -/
def appendLabel (m : Mem) (str : List UInt8) (l : WireLabel) : List UInt8 :=
  cstr (str ++ bytesAt m l.start l.len ++ [46])

/-- A label that begins with a zero byte. It adds nothing to a string. -/
def WireLabel.Blank (m : Mem) (l : WireLabel) : Prop := 0 < l.len ∧ m l.start = 0

theorem wireLabel_next_lt {m : Mem} {plen p : ℕ} {l : WireLabel} (h : wireLabel m plen p = some l) :
    l.next < plen := by
  unfold wireLabel at h
  unfold WireLabel.next
  split_ifs at h with h1 h2 h3 h4
  · obtain rfl := Option.some.inj h
    exact h3.2
  · obtain rfl := Option.some.inj h
    exact h4

section Cstr

theorem zero_not_mem_cstr (s : List UInt8) : 0 ∉ cstr s := by
  intro h
  simpa using mem_takeWhile_imp h

theorem cstr_of_not_mem {s : List UInt8} (h : 0 ∉ s) : cstr s = s := by
  refine takeWhile_eq_self_iff.mpr fun x hx => ?_
  simp only [ne_eq, decide_eq_true_eq]
  rintro rfl
  exact h hx

theorem cstr_append {s t : List UInt8} (h : 0 ∉ s) : cstr (s ++ t) = s ++ cstr t := by
  unfold cstr
  rw [takeWhile_append_of_pos]
  intro x hx
  simp only [ne_eq, decide_eq_true_eq]
  rintro rfl
  exact h hx

theorem length_bytesAt (m : Mem) (i n : ℕ) : (bytesAt m i n).length = n := by
  simp [bytesAt]

theorem bytesAt_succ (m : Mem) (i n : ℕ) : bytesAt m i (n + 1) = m i :: bytesAt m (i + 1) n := by
  unfold bytesAt
  rw [range_succ_eq_map, map_cons, map_map]
  congr 1
  exact map_congr_left fun j _ => by simp [Nat.add_assoc, Nat.add_comm 1]

variable {m : Mem} {str : List UInt8} {l : WireLabel}

theorem zero_not_mem_appendLabel : 0 ∉ appendLabel m str l := zero_not_mem_cstr _

theorem appendLabel_eq (h : 0 ∉ str) :
    appendLabel m str l = str ++ cstr (bytesAt m l.start l.len ++ [46]) := by
  rw [appendLabel, append_assoc, cstr_append h]

/-- The string stays the same exactly if the label begins with a zero byte. -/
theorem appendLabel_eq_self_iff (h : 0 ∉ str) : appendLabel m str l = str ↔ l.Blank m := by
  rw [appendLabel_eq h, append_right_eq_self]
  unfold WireLabel.Blank
  obtain ⟨start, len⟩ := l
  cases len with
  | zero => simp [bytesAt, cstr]
  | succ n =>
    rw [bytesAt_succ, cons_append, cstr, takeWhile_cons]
    split_ifs with h0
    · simpa using h0
    · simpa using h0

theorem length_le_appendLabel (h : 0 ∉ str) : str.length ≤ (appendLabel m str l).length := by
  rw [appendLabel_eq h, length_append]
  omega

theorem length_appendLabel_le : (appendLabel m str l).length ≤ str.length + l.len + 1 := by
  refine ( takeWhile_prefix _).length_le.trans ?_
  simp [length_bytesAt, Nat.add_assoc]

end Cstr

/-! ## One iteration -/

/-- The state after a label has been appended. -/
def NameLoop.append (m : Mem) (s : NameLoop) (l : WireLabel) : NameLoop where
  off := if s.jmp then s.off else s.off + ownLen m s.laboff
  laboff := l.next
  jmp := s.jmp || decide (IsPointer m s.laboff)
  str := appendLabel m s.str l
  reads := s.reads ++ (if IsPointer m s.laboff then [s.laboff, s.laboff + 1, pointerAt m s.laboff]
    else [s.laboff]) ++ (range l.len).map (l.start + ·)
  stores := s.stores ++ (range (l.len + 2)).map (s.str.length + ·)

section Body

variable {m : Mem} {plen bufsiz : ℕ} {s s' : NameLoop}

/-- A label is copied if it fits in the packet and in the buffer. -/
theorem copyLabel_inl_iff {n : ℕ} : copyLabel m plen bufsiz s n = .inl s' ↔
    s.laboff + n < plen ∧ n + s.str.length + 2 ≤ bufsiz ∧
      s' = { s with
        laboff := s.laboff + n
        str := appendLabel m s.str ⟨s.laboff, n⟩
        reads := s.reads ++ (range n).map (s.laboff + ·)
        stores := s.stores ++ (range (n + 2)).map (s.str.length + ·) } := by
  unfold copyLabel
  split_ifs with h1 h2
  · simp
    omega
  · simp
    omega
  · rw [Sum.inl.injEq, eq_comm]
    exact ⟨fun h => ⟨by omega, by omega, h⟩, fun h => h.2.2⟩

theorem nameBody_done (h : plen ≤ s.off) : nameBody m plen bufsiz s = .inr (.ok s) :=
  if_neg (Nat.not_lt.mpr h)

theorem nameBody_zero (hoff : s.off < plen) (h0 : (m s.laboff).toNat = 0) :
    nameBody m plen bufsiz s = .inr (.ok s.advance) := by
  simp only [nameBody, if_pos hoff, if_pos h0]

/-- The branch of a compression pointer. -/
theorem nameBody_pointer (hoff : s.off < plen) (hptr : IsPointer m s.laboff) :
    nameBody m plen bufsiz s =
      if plen ≤ s.laboff + 1 then .inr (.error s.advance)
      else if plen ≤ pointerAt m s.laboff then .inr (.error s.advance.advance)
      else copyLabel m plen bufsiz
        { s.advance.advance with
          laboff := pointerAt m s.laboff + 1, jmp := true
          reads := s.advance.advance.reads ++ [pointerAt m s.laboff] }
        (m (pointerAt m s.laboff)).toNat := by
  have hge : (m s.laboff).toNat ≥ 192 := hptr
  have h0 : ¬(m s.laboff).toNat = 0 := by omega
  simp only [nameBody, if_pos hoff, if_neg h0, if_pos hge]
  rfl

/-- The branch of a plain label. -/
theorem nameBody_label (hoff : s.off < plen) (h0 : (m s.laboff).toNat ≠ 0)
    (hptr : ¬IsPointer m s.laboff) :
    nameBody m plen bufsiz s = copyLabel m plen bufsiz
      { s.advance with
        off := if s.jmp then s.advance.off else (s.advance.off + (m s.laboff).toNat) % 65536 }
      (m s.laboff).toNat := by
  have hlt : ¬(m s.laboff).toNat ≥ 192 := hptr
  simp only [nameBody, if_pos hoff, if_neg h0, if_neg hlt]
  rfl

theorem append_eq_of_pointer (hptr : IsPointer m s.laboff) (n : ℕ) :
    s.append m ⟨pointerAt m s.laboff + 1, n⟩ =
      { s.advance.advance with
        laboff := pointerAt m s.laboff + 1 + n, jmp := true
        str := appendLabel m s.str ⟨pointerAt m s.laboff + 1, n⟩
        reads := s.advance.advance.reads ++ [pointerAt m s.laboff] ++
          (range n).map (pointerAt m s.laboff + 1 + ·)
        stores := s.stores ++ (range (n + 2)).map (s.str.length + ·) } := by
  unfold NameLoop.append NameLoop.advance WireLabel.next ownLen
  cases hj : s.jmp <;> simp [hptr]

theorem append_eq_of_label (hptr : ¬IsPointer m s.laboff) (hs : s.jmp = false → s.off = s.laboff)
    (hlt : s.laboff + 1 + (m s.laboff).toNat ≤ 65535) :
    s.append m ⟨s.laboff + 1, (m s.laboff).toNat⟩ =
      { s.advance with
        off := if s.jmp then s.advance.off else (s.advance.off + (m s.laboff).toNat) % 65536
        laboff := s.laboff + 1 + (m s.laboff).toNat
        str := appendLabel m s.str ⟨s.laboff + 1, (m s.laboff).toNat⟩
        reads := s.advance.reads ++ (range (m s.laboff).toNat).map (s.laboff + 1 + ·)
        stores := s.stores ++ (range ((m s.laboff).toNat + 2)).map (s.str.length + ·) } := by
  unfold NameLoop.append NameLoop.advance WireLabel.next ownLen
  cases hj : s.jmp with
  | false =>
    have hmod : (s.laboff + (1 + (m s.laboff).toNat)) % 65536 = s.laboff +
      (1 + (m s.laboff).toNat) := Nat.mod_eq_of_lt (by omega)
    simp [hptr, hs hj, hmod, Nat.add_assoc]
  | true => simp [hptr]

/-- An iteration appends one label. -/
theorem nameBody_inl_iff (hplen : plen ≤ 65535) (hs : s.jmp = false → s.off = s.laboff) :
    nameBody m plen bufsiz s = .inl s' ↔ s.off < plen ∧ ∃ l, wireLabel m plen s.laboff = some l ∧
      l.len + s.str.length + 2 ≤ bufsiz ∧ s' = s.append m l := by
  by_cases hoff : s.off < plen
  swap
  · simp [nameBody_done (Nat.not_lt.mp hoff), hoff]
  rw [wireLabel]
  by_cases h0 : (m s.laboff).toNat = 0
  · simp [nameBody_zero hoff h0, h0]
  rw [if_neg h0]
  by_cases hptr : IsPointer m s.laboff
  · rw [nameBody_pointer hoff hptr, if_pos hptr]
    by_cases hfit : s.laboff + 1 < plen ∧
        pointerAt m s.laboff + 1 + (m (pointerAt m s.laboff)).toNat < plen
    · rw [if_neg (by omega), if_neg (by omega), if_pos hfit, copyLabel_inl_iff]
      simp only [Option.some.injEq, exists_eq_left', append_eq_of_pointer hptr]
      exact ⟨fun h => ⟨hoff, h.2⟩, fun h => ⟨hfit.2, h.2⟩⟩
    · rw [if_neg hfit]
      split_ifs with h1 h2
      · simp
      · simp
      · rw [copyLabel_inl_iff]
        constructor
        · rintro ⟨hlt, -⟩
          exact absurd ⟨by omega, hlt⟩ hfit
        · simp
  · rw [nameBody_label hoff h0 hptr, if_neg hptr, copyLabel_inl_iff]
    by_cases hfit : s.laboff + 1 + (m s.laboff).toNat < plen
    · rw [if_pos hfit]
      simp only [Option.some.injEq, exists_eq_left', append_eq_of_label hptr hs (by omega)]
      exact ⟨fun h => ⟨hoff, h.2⟩, fun h => ⟨hfit, h.2⟩⟩
    · rw [if_neg hfit]
      constructor
      · rintro ⟨hlt, -⟩
        exact absurd hlt hfit
      · simp

end Body

/-! ## Following the labels -/

/-- A position while a name is followed: the text so far, and the end of the name itself once a
pointer has been followed. -/
structure NamePos where
  pos : ℕ
  text : List UInt8
  own : Option ℕ
deriving DecidableEq, Repr

/-- The next position. -/
def NamePos.step (m : Mem) (plen : ℕ) (q : NamePos) : Option NamePos :=
  (wireLabel m plen q.pos).map fun l =>
    ⟨l.next, appendLabel m q.text l, if IsPointer m q.pos then q.own <|> some (q.pos + 2)
      else q.own⟩

/-- The position after `n` labels of the name at `off`. -/
def walk (m : Mem) (plen off : ℕ) : ℕ → Option NamePos
  | 0 => some ⟨off, [], none⟩
  | n + 1 => (walk m plen off n).bind (NamePos.step m plen)

/-- The end of the name itself, as far as it is known at a position. -/
def NamePos.off (q : NamePos) : ℕ := q.own.getD q.pos

/-- The first `n` labels of the name at `off` can be read: before each of them the name itself has
not come to the end of the packet, and the buffer has room for it. -/
def Passes (m : Mem) (plen bufsiz off n : ℕ) : Prop :=
  ∀ i < n, ∃ q l, walk m plen off i = some q ∧ wireLabel m plen q.pos = some l ∧ q.off < plen ∧
    l.len + q.text.length + 2 ≤ bufsiz

/-- The name at `off` ends at `e` and has the text `txt`, and the buffer has room for it. -/
def Decodes (m : Mem) (plen bufsiz off e : ℕ) (txt : List UInt8) : Prop :=
  ∃ n q, Passes m plen bufsiz off n ∧ walk m plen off n = some q ∧ q.text = txt ∧
    (plen ≤ q.off ∧ e = q.off ∨ q.off < plen ∧ m q.pos = 0 ∧ e = q.own.getD (q.pos + 1))

/-- The labels number `k` to `k + c - 1` of the name at `off` can be read, form a circle, and all of
them begin with a zero byte. -/
structure BlankCircle (m : Mem) (plen bufsiz off k c : ℕ) : Prop where
  pos : 0 < c
  passes : Passes m plen bufsiz off (k + c)
  back : ∃ q q', walk m plen off k = some q ∧ walk m plen off (k + c) = some q' ∧ q'.pos = q.pos ∧
    q'.off < plen
  blank : ∀ n q l, k ≤ n → n < k + c → walk m plen off n = some q →
    wireLabel m plen q.pos = some l → l.Blank m

/-- The state of the loop at a position. -/
structure NameLoop.At (s : NameLoop) (q : NamePos) : Prop where
  laboff : s.laboff = q.pos
  str : s.str = q.text
  jmp : s.jmp = q.own.isSome
  off : s.off = q.off

/-- What the loop has done when it has read `n` labels of the name at `off` and has got to `q`. All
stores are below a bound exactly if a buffer of this size has room for these labels. -/
structure NameLoop.Read (m : Mem) (plen bufsiz off n : ℕ) (q : NamePos) (s : NameLoop) : Prop where
  passes : Passes m plen bufsiz off n
  walk : walk m plen off n = some q
  position : s.At q
  reads : ∀ i ∈ s.reads, i < plen
  stores : ∀ b, (∀ i ∈ s.stores, i < b) ↔ 0 < b ∧ Passes m plen b off n

section Walk

variable {m : Mem} {plen bufsiz off n : ℕ} {s s' : NameLoop} {q q' : NamePos} {l : WireLabel}

theorem wireLabel_lt {p : ℕ} (h : wireLabel m plen p = some l) : p < plen := by
  unfold wireLabel at h
  split_ifs at h with h1 h2 h3 h4 <;> omega

theorem walk_succ (hq : walk m plen off n = some q) : walk m plen off (n + 1) = q.step m plen := by
  rw [walk, hq, Option.bind_some]

theorem walk_pred (hq : walk m plen off (n + 1) = some q') :
    ∃ q, walk m plen off n = some q ∧ q.step m plen = some q' := Option.bind_eq_some_iff.mp hq

theorem zero_not_mem_walk (hq : walk m plen off n = some q) : 0 ∉ q.text := by
  cases n with
  | zero =>
    obtain rfl := Option.some.inj hq
    simp
  | succ n =>
    obtain ⟨q0, -, hstep⟩ := walk_pred hq
    obtain ⟨l, -, rfl⟩ := Option.map_eq_some_iff.mp hstep
    exact zero_not_mem_appendLabel

theorem NameLoop.at_start (off : ℕ) :
    (NameLoop.start off).At ⟨off, [], none⟩ := ⟨rfl, rfl, rfl, rfl⟩

theorem NameLoop.At.own (h : s.At q) : s.jmp = false → s.off = s.laboff := by
  intro hj
  have hnone : q.own = none := by
    rw [h.jmp] at hj
    simpa using hj
  rw [h.off, h.laboff, NamePos.off, hnone, Option.getD_none]

/-- Copying a label is a step of the walk. -/
theorem NameLoop.At.append (h : s.At q) (hl : wireLabel m plen q.pos = some l) :
    ∃ q', q.step m plen = some q' ∧ (s.append m l).At q' := by
  refine ⟨_, by rw [NamePos.step, hl, Option.map_some], ?_⟩
  obtain ⟨h1, h2, h3, h4⟩ := h
  have hlabel : ¬IsPointer m q.pos → l.next = q.pos + ownLen m q.pos := by
    intro hptr
    unfold wireLabel at hl
    split_ifs at hl
    obtain rfl := Option.some.inj hl
    simp only [WireLabel.next, ownLen, if_neg hptr]
    omega
  constructor
  · rfl
  · simp only [NameLoop.append, h2]
  · simp only [NameLoop.append, h1, h3]
    by_cases hptr : IsPointer m q.pos <;> cases q.own <;> simp [hptr]
  · simp only [NameLoop.append, NamePos.off, h1, h3, h4]
    by_cases hptr : IsPointer m q.pos
    · cases q.own <;> simp [hptr, ownLen]
    · cases q.own <;> simp [hptr, hlabel hptr]

/-- The loop goes on exactly if the next label fits. -/
theorem NameLoop.At.body_inl_iff (h : s.At q) (hplen : plen ≤ 65535) :
    nameBody m plen bufsiz s = .inl s' ↔ s.off < plen ∧ ∃ l, wireLabel m plen q.pos = some l ∧
      l.len + q.text.length + 2 ≤ bufsiz ∧ s' = s.append m l := by
  rw [nameBody_inl_iff hplen h.own, h.laboff, h.str]

/-- The loop follows the walk as long as the labels fit. -/
theorem steps_of_passes (hplen : plen ≤ 65535) (h : Passes m plen bufsiz off n) :
    ∃ s q, walk m plen off n = some q ∧ Steps (nameBody m plen bufsiz) (.start off) s ∧ s.At q := by
  induction n with
  | zero => exact ⟨_, _, rfl, .refl, NameLoop.at_start off⟩
  | succ n ih =>
    obtain ⟨s, q, hq, hsteps, hat⟩ := ih fun i hi => h i (by omega)
    obtain ⟨q0, l, hq0, hl, hoff, hfit⟩ := h n (by omega)
    obtain rfl := Option.some.inj (hq.symm.trans hq0)
    obtain ⟨q', hstep, hat'⟩ := hat.append hl
    refine ⟨s.append m l, q', (walk_succ hq).trans hstep, hsteps.tail ?_, hat'⟩
    exact (hat.body_inl_iff hplen).mpr ⟨by rwa [hat.off], l, hl, hfit, rfl⟩

theorem passes_succ (hq : walk m plen off n = some q) (hl : wireLabel m plen q.pos = some l)
    (hoff : q.off < plen) : Passes m plen bufsiz off (n + 1) ↔
      Passes m plen bufsiz off n ∧ l.len + q.text.length + 2 ≤ bufsiz := by
  constructor
  · intro h
    refine ⟨fun i hi => h i (by omega), ?_⟩
    obtain ⟨q', l', hq', hl', -, hfit⟩ := h n (by omega)
    obtain rfl := Option.some.inj (hq.symm.trans hq')
    obtain rfl := Option.some.inj (hl.symm.trans hl')
    exact hfit
  · rintro ⟨h, hfit⟩ i hi
    rcases Nat.lt_or_ge i n with hlt | hge
    · exact h i hlt
    · obtain rfl : i = n := by omega
      exact ⟨q, l, hq, hl, hoff, hfit⟩

theorem NameLoop.read_start : (NameLoop.start off).Read m plen bufsiz off 0 ⟨off, [], none⟩ where
  passes i hi := by omega
  walk := rfl
  position := NameLoop.at_start off
  reads i hi := by simp [NameLoop.start] at hi
  stores b := by
    simp only [NameLoop.start, mem_singleton, forall_eq, iff_self_and]
    intro _ i hi
    omega

theorem forall_range_add_lt (a k b : ℕ) :
    (∀ i ∈ (range (k + 2)).map (a + ·), i < b) ↔ k + a + 2 ≤ b := by
  simp only [mem_map, mem_range, forall_exists_index, and_imp, forall_apply_eq_imp_iff₂]
  constructor
  · intro h
    have := h (k + 1) (by omega)
    omega
  · intro h i hi
    omega

theorem wireLabel_reads (h : wireLabel m plen q.pos = some l) {i : ℕ}
    (hi : i ∈ (if IsPointer m q.pos then [q.pos, q.pos + 1, pointerAt m q.pos] else [q.pos]) ++
      (range l.len).map (l.start + ·)) : i < plen := by
  have hnext := wireLabel_next_lt h
  have hpos := wireLabel_lt h
  rcases mem_append.mp hi with hi | hi
  · split_ifs at hi with hptr
    · simp only [wireLabel, if_pos hptr] at h
      split_ifs at h with h0 h1
      simp only [mem_cons, not_mem_nil, or_false] at hi
      omega
    · rw [mem_singleton] at hi
      omega
  · obtain ⟨j, hj, rfl⟩ := mem_map.mp hi
    rw [mem_range] at hj
    unfold WireLabel.next at hnext
    omega

theorem NameLoop.Read.append (h : s.Read m plen bufsiz off n q)
    (hl : wireLabel m plen q.pos = some l) (hoff : q.off < plen)
    (hfit : l.len + q.text.length + 2 ≤ bufsiz) :
    ∃ q', (s.append m l).Read m plen bufsiz off (n + 1) q' := by
  obtain ⟨q', hnext, hat'⟩ := h.position.append hl
  refine ⟨q', (passes_succ h.walk hl hoff).mpr ⟨h.passes, hfit⟩, (walk_succ h.walk).trans hnext,
    hat', fun i hi => ?_, fun b => ?_⟩
  · simp only [NameLoop.append, h.position.laboff, append_assoc, mem_append] at hi
    rcases hi with hi | hi
    · exact h.reads i hi
    · exact wireLabel_reads hl (mem_append.mpr hi)
  · simp only [NameLoop.append, forall_mem_append, h.position.str]
    rw [forall_range_add_lt, h.stores, passes_succ h.walk hl hoff, and_assoc]

/-- Every state of the loop is a position of the walk. -/
theorem read_of_steps (hplen : plen ≤ 65535) (h : Steps (nameBody m plen bufsiz) (.start off) s) :
    ∃ n q, s.Read m plen bufsiz off n q := by
  induction h with
  | refl => exact ⟨0, _, NameLoop.read_start⟩
  | tail _ hstep ih =>
    obtain ⟨n, q, hread⟩ := ih
    obtain ⟨hoff, l, hl, hfit, rfl⟩ := (hread.position.body_inl_iff hplen).mp hstep
    obtain ⟨q', hread'⟩ := hread.append hl (hread.position.off ▸ hoff) hfit
    exact ⟨n + 1, q', hread'⟩

theorem copyLabel_ne_ok {k : ℕ} : copyLabel m plen bufsiz s k ≠ .inr (.ok s') := by
  unfold copyLabel
  split_ifs <;> simp

/-- How the loop ends without an error. -/
theorem nameBody_ok_iff : nameBody m plen bufsiz s = .inr (.ok s') ↔
    plen ≤ s.off ∧ s' = s ∨ s.off < plen ∧ (m s.laboff).toNat = 0 ∧ s' = s.advance := by
  by_cases hoff : s.off < plen
  swap
  · simp [nameBody_done (Nat.not_lt.mp hoff), hoff, Nat.not_lt.mp hoff, eq_comm]
  by_cases h0 : (m s.laboff).toNat = 0
  · simp [nameBody_zero hoff h0, hoff, h0, Nat.not_le.mpr hoff, eq_comm]
  have hfalse : nameBody m plen bufsiz s ≠ .inr (.ok s') := by
    by_cases hptr : IsPointer m s.laboff
    · rw [nameBody_pointer hoff hptr]
      split_ifs
      · simp
      · simp
      · exact copyLabel_ne_ok
    · rw [nameBody_label hoff h0 hptr]
      exact copyLabel_ne_ok
  simp [hfalse, h0, Nat.not_le.mpr hoff]

/-- The loop returns a name exactly if the packet encodes it. -/
theorem returns_ok_iff (hplen : plen ≤ 65535) {e : ℕ} {txt : List UInt8} :
    (∃ s, Returns (nameBody m plen bufsiz) (.start off) (.ok s) ∧ s.off = e ∧ s.str = txt) ↔
      Decodes m plen bufsiz off e txt := by
  constructor
  · rintro ⟨s, hr, rfl, rfl⟩
    obtain ⟨s0, hsteps, hb⟩ := returns_iff.mp hr
    obtain ⟨n, q, hread⟩ := read_of_steps hplen hsteps
    have hat := hread.position
    refine ⟨n, q, hread.passes, hread.walk, ?_⟩
    rcases nameBody_ok_iff.mp hb with ⟨hoff, rfl⟩ | ⟨hoff, h0, rfl⟩
    · exact ⟨hat.str.symm, .inl ⟨hat.off ▸ hoff, hat.off⟩⟩
    · refine ⟨hat.str.symm, .inr ⟨hat.off ▸ hoff, ?_, ?_⟩⟩
      · rw [hat.laboff] at h0
        exact UInt8.toNat_inj.mp h0
      · simp only [NameLoop.advance, hat.jmp, hat.off, NamePos.off]
        cases q.own <;> simp
  · rintro ⟨n, q, hpass, hq, rfl, hend⟩
    obtain ⟨s, q', hq', hsteps, hat⟩ := steps_of_passes hplen hpass
    obtain rfl := Option.some.inj (hq.symm.trans hq')
    rcases hend with ⟨hoff, rfl⟩ | ⟨hoff, h0, rfl⟩
    · exact ⟨s, returns_iff.mpr ⟨s, hsteps, nameBody_done (hat.off ▸ hoff)⟩, hat.off, hat.str⟩
    · refine ⟨s.advance, returns_iff.mpr ⟨s, hsteps, nameBody_zero (hat.off ▸ hoff) ?_⟩, ?_,
        hat.str⟩
      · rw [hat.laboff, h0]
        rfl
      · simp only [NameLoop.advance, hat.jmp, hat.off, NamePos.off]
        cases q.own <;> simp

/-- Without pointers the walk goes forward. -/
theorem pos_lt_of_own_eq_none {k : ℕ} (hlt : n < k) (hn : walk m plen off n = some q)
    (hk : walk m plen off k = some q') (hnone : q'.own = none) : q.pos < q'.pos := by
  induction k generalizing q' with
  | zero => omega
  | succ k ih =>
    obtain ⟨q0, hq0, hstep⟩ := walk_pred hk
    obtain ⟨l, hl, rfl⟩ := Option.map_eq_some_iff.mp hstep
    have hptr : ¬IsPointer m q0.pos := by
      intro hptr
      simp [hptr] at hnone
    have hnone0 : q0.own = none := by simpa [hptr] using hnone
    have hgrow : q0.pos < l.next := by
      unfold wireLabel at hl
      split_ifs at hl
      obtain rfl := Option.some.inj hl
      simp only [WireLabel.next]
      omega
    rcases Nat.lt_or_ge n k with hnk | hge
    · exact (ih hnk hq0 hnone0).trans hgrow
    · obtain rfl : n = k := by omega
      obtain rfl := Option.some.inj (hn.symm.trans hq0)
      exact hgrow

end Walk

section Circle

variable {m : Mem} {plen bufsiz off k c : ℕ}

theorem BlankCircle.text_eq (h : BlankCircle m plen bufsiz off k c) {j : ℕ} {q q' : NamePos}
    (hj : j ≤ c) (hq : walk m plen off k = some q) (hq' : walk m plen off (k + j) = some q') :
    q'.text = q.text := by
  induction j generalizing q' with
  | zero => exact congrArg NamePos.text (Option.some.inj (hq'.symm.trans hq))
  | succ j ih =>
    obtain ⟨q0, hq0, hstep⟩ := walk_pred hq'
    obtain ⟨l, hl, rfl⟩ := Option.map_eq_some_iff.mp hstep
    have hblank := h.blank (k + j) q0 l (by omega) (by omega) hq0 hl
    exact ((appendLabel_eq_self_iff (zero_not_mem_walk hq0)).mpr hblank).trans (ih (by omega) hq0)

/-- The loop runs forever on a circle of labels without text. -/
theorem BlankCircle.not_returns (h : BlankCircle m plen bufsiz off k c) (hplen : plen ≤ 65535)
    (r : Except NameLoop NameLoop) : ¬Returns (nameBody m plen bufsiz) (.start off) r := by
  obtain ⟨q, q', hq, hq', hpos, hend⟩ := h.back
  obtain ⟨s, q1, hq1, hsteps, hat⟩ := steps_of_passes hplen h.passes
  obtain rfl := Option.some.inj (hq'.symm.trans hq1)
  have htext := h.text_eq le_rfl hq hq'
  have hc := h.pos
  obtain ⟨e, he⟩ : ∃ e, q'.own = some e := by
    rw [← Option.isSome_iff_exists]
    by_contra hnone
    have := pos_lt_of_own_eq_none (by omega) hq hq' (by simpa using hnone)
    omega
  -- in the circle: at one of its labels, with the same text
  refine Lib.not_returns (P := fun s => s.jmp = true ∧ s.off < plen ∧ ∃ j q, k ≤ j ∧ j < k + c ∧
    walk m plen off j = some q ∧ s.laboff = q.pos ∧ s.str = q.text) (fun s hs => ?_) hsteps ?_
  · obtain ⟨hjmp, hoff, j, q2, hkj, hjc, hq2, hlab, hstr⟩ := hs
    obtain ⟨q3, l, hq3, hl, -, hfit⟩ := h.passes j hjc
    obtain rfl := Option.some.inj (hq2.symm.trans hq3)
    have hnext : walk m plen off (j + 1) = q2.step m plen := walk_succ hq2
    rw [NamePos.step, hl, Option.map_some] at hnext
    refine ⟨s.append m l, (nameBody_inl_iff hplen (by simp [hjmp])).mpr
      ⟨hoff, l, by rwa [hlab], by rwa [hstr], rfl⟩, by simp [NameLoop.append, hjmp],
      by simpa [NameLoop.append, hjmp] using hoff, ?_⟩
    by_cases hlast : j + 1 = k + c
    · rw [hlast, hq', Option.some.injEq] at hnext
      refine ⟨k, q, le_rfl, by omega, hq, ?_, ?_⟩
      · rw [← hpos, hnext]
        rfl
      · rw [← htext, hnext, NameLoop.append, hstr]
    · refine ⟨j + 1, _, by omega, by omega, hnext, rfl, ?_⟩
      rw [NameLoop.append, hstr]
  · refine ⟨by rw [hat.jmp, he]; rfl, ?_, k, q, le_rfl, by omega, hq, by rw [hat.laboff, hpos],
      by rw [hat.str, htext]⟩
    rw [hat.off]
    exact hend

/-- A loop that runs forever comes to such a circle. -/
theorem exists_blankCircle (hplen : plen ≤ 65535)
    (h : ∀ r, ¬Returns (nameBody m plen bufsiz) (.start off) r) :
    ∃ k c, BlankCircle m plen bufsiz off k c := by
  obtain ⟨f, hf0, hf⟩ := exists_seq h
  have hat : ∀ n, ∃ q, walk m plen off n = some q ∧ (f n).At q := by
    intro n
    induction n with
    | zero => exact ⟨_, rfl, hf0 ▸ NameLoop.at_start off⟩
    | succ n ih =>
      obtain ⟨q, hq, hat⟩ := ih
      obtain ⟨-, l, hl, -, heq⟩ := (hat.body_inl_iff hplen).mp (hf n)
      obtain ⟨q', hstep, hat'⟩ := hat.append hl
      exact ⟨q', (walk_succ hq).trans hstep, heq ▸ hat'⟩
  have hlabel : ∀ n q, walk m plen off n = some q → (f n).off < plen ∧ ∃ l,
      wireLabel m plen q.pos = some l ∧ l.len + q.text.length + 2 ≤ bufsiz ∧
      f (n + 1) = (f n).append m l := by
    intro n q hq
    obtain ⟨q0, hq0, hat0⟩ := hat n
    obtain rfl := Option.some.inj (hq.symm.trans hq0)
    exact (hat0.body_inl_iff hplen).mp (hf n)
  have hplace : ∀ n, (f n).laboff < plen := by
    intro n
    obtain ⟨q, hq, hat⟩ := hat n
    obtain ⟨-, l, hl, -⟩ := hlabel n q hq
    rw [hat.laboff]
    exact wireLabel_lt hl
  have hsize : ∀ n, (f n).str.length ≤ bufsiz := by
    intro n
    obtain ⟨q, hq, hat⟩ := hat n
    obtain ⟨-, l, -, hfit, -⟩ := hlabel n q hq
    rw [hat.str]
    omega
  obtain ⟨k, c, hc, hpos, hlen⟩ :=
    exists_repeat NameLoop.laboff (fun s => s.str.length) hplace hsize
  -- the string can only grow, so it does not grow in between
  have hmono : Monotone fun n => (f n).str.length := by
    refine monotone_nat_of_le_succ fun n => ?_
    obtain ⟨q, hq, hat⟩ := hat n
    obtain ⟨-, l, -, -, heq⟩ := hlabel n q hq
    simp only [heq, NameLoop.append, hat.str]
    exact length_le_appendLabel (zero_not_mem_walk hq)
  refine ⟨k, c, hc, fun n _ => ?_, ?_, fun n q l hkn hnc hq hl => ?_⟩
  · obtain ⟨q, hq, hat⟩ := hat n
    obtain ⟨hoff, l, hl, hfit, -⟩ := hlabel n q hq
    exact ⟨q, l, hq, hl, hat.off ▸ hoff, hfit⟩
  · obtain ⟨q, hq, hat1⟩ := hat k
    obtain ⟨q', hq', hat2⟩ := hat (k + c)
    refine ⟨q, q', hq, hq', by rw [← hat2.laboff, ← hat1.laboff, hpos], ?_⟩
    rw [← hat2.off]
    exact (hlabel (k + c) q' hq').1
  · obtain ⟨q0, hq0, hat0⟩ := hat n
    obtain rfl := Option.some.inj (hq.symm.trans hq0)
    obtain ⟨-, l', hl', -, heq⟩ := hlabel n q hq
    obtain rfl := Option.some.inj (hl.symm.trans hl')
    have h1 := hmono hkn
    have h2 := hmono (show n ≤ n + 1 by omega)
    have h3 := hmono (show n + 1 ≤ k + c by omega)
    simp only [heq, NameLoop.append, hat0.str] at h1 h2 h3
    rw [← appendLabel_eq_self_iff (zero_not_mem_walk hq)]
    rw [appendLabel_eq (zero_not_mem_walk hq)] at h3 ⊢
    rw [length_append] at h3
    rw [append_right_eq_self, ← length_eq_zero_iff]
    omega

/-- A loop that reads a name ends exactly if it does not run into a circle. -/
theorem nameLoop_returns_iff (hplen : plen ≤ 65535) :
    (∃ r, Returns (nameBody m plen bufsiz) (.start off) r) ↔
      ¬∃ k c, BlankCircle m plen bufsiz off k c := by
  constructor
  · rintro ⟨r, hr⟩ ⟨k, c, h⟩
    exact h.not_returns hplen r hr
  · intro hno
    by_contra hnone
    exact hno (exists_blankCircle hplen fun r hr => hnone ⟨r, hr⟩)

end Circle

/-! ## The calls that return -/

section Calls

variable {m : Mem} {plen bufsiz datbufsiz off remcnt : ℕ}

/-- `dns_next` returns unless its loop runs forever. -/
theorem dnsNext_returns_iff : (∃ r, DnsNextReturns m off remcnt plen bufsiz r) ↔
    remcnt = 0 ∨ ∃ r, Returns (nameBody m plen bufsiz) (.start off) r := by
  unfold DnsNextReturns dnsNext
  by_cases h0 : remcnt = 0
  · simp [h0]
  simp only [h0, if_false, false_or, Option.map_eq_some_iff]
  constructor
  · rintro ⟨-, fuel, x, hx, -⟩
    exact ⟨x, fuel, hx⟩
  · rintro ⟨x, fuel, hx⟩
    exact ⟨_, fuel, x, hx, rfl⟩

theorem dnsNextAnAsk_returns_iff : (∃ r, DnsNextAnAskReturns m off remcnt plen bufsiz datbufsiz r) ↔
    remcnt = 0 ∨ (∃ r, Returns (nameBody m plen bufsiz) (.start off) r) ∧
      ∀ s, Returns (nameBody m plen bufsiz) (.start off) (.ok s) → s.off + 10 ≤ plen →
        hdrGet16n m s.off = 5 → hdrGet16n m (s.off + 8) ≠ 0 →
        ∃ r, Returns (nameBody m plen bufsiz) (.start (s.off + 10)) r := by
  unfold DnsNextAnAskReturns dnsNextAnAsk
  by_cases h0 : remcnt = 0
  · simp [h0]
  simp only [h0, if_false, false_or, Option.bind_eq_some_iff]
  constructor
  · rintro ⟨r, fuel, x, hx, hr⟩
    refine ⟨⟨x, fuel, hx⟩, fun s hs hlen htype hrd => ?_⟩
    obtain rfl := Returns.unique ⟨fuel, hx⟩ hs
    simp only [anAskRest, if_neg (Nat.not_lt.mpr hlen), htype, ne_eq, not_true_eq_false, if_false,
      anAskCname, hrd, and_false, Option.map_eq_some_iff] at hr
    obtain ⟨d, hd, -⟩ := hr
    exact ⟨d, fuel, hd⟩
  · rintro ⟨⟨x, fuel, hx⟩, hdata⟩
    cases x with
    | error s => exact ⟨_, fuel, _, hx, rfl⟩
    | ok s =>
      by_cases hlen : s.off + 10 > plen
      · exact ⟨_, fuel, _, hx, by rw [anAskRest, if_pos hlen]⟩
      by_cases htype : hdrGet16n m s.off ≠ 5
      · exact ⟨_, fuel, _, hx, by rw [anAskRest, if_neg hlen, if_pos htype]⟩
      by_cases hrd : s.off + 10 < plen ∧ hdrGet16n m (s.off + 8) = 0
      · exact ⟨_, fuel, _, hx, by rw [anAskRest, if_neg hlen, if_neg htype, anAskCname, if_pos hrd]⟩
      obtain ⟨d, fuel', hd⟩ : ∃ r, Returns (nameBody m plen bufsiz) (.start (s.off + 10)) r := by
        by_cases hend : s.off + 10 < plen
        · exact hdata s ⟨fuel, hx⟩ (by omega) (not_not.mp htype) fun h => hrd ⟨hend, h⟩
        · exact ⟨_, .of_inr (nameBody_done (Nat.not_lt.mp hend))⟩
      exact ⟨_, max fuel fuel', _, loop_mono hx (Nat.le_max_left ..), by
        rw [anAskRest, if_neg hlen, if_neg htype, anAskCname, if_neg hrd,
          loop_mono hd (Nat.le_max_right ..), Option.map_some]⟩

/-- The loops that follow compressed names end exactly if they do not run into a circle of labels
that begin with a zero byte. The calls return exactly if their loops end, for a CNAME record that at
its data, too. -/
theorem dns_names_return_iff (m : Mem) (hplen : plen ≤ 65535) (off remcnt bufsiz datbufsiz : ℕ) :
    ((∃ r, Returns (nameBody m plen bufsiz) (.start off) r) ↔
      ¬∃ k c, BlankCircle m plen bufsiz off k c) ∧
    ((∃ r, DnsNextReturns m off remcnt plen bufsiz r) ↔
      remcnt = 0 ∨ ¬∃ k c, BlankCircle m plen bufsiz off k c) ∧
    ((∃ r, DnsNextAnAskReturns m off remcnt plen bufsiz datbufsiz r) ↔
      remcnt = 0 ∨ (¬∃ k c, BlankCircle m plen bufsiz off k c) ∧
        ∀ e txt, Decodes m plen bufsiz off e txt → e + 10 ≤ plen → hdrGet16n m e = 5 →
          hdrGet16n m (e + 8) ≠ 0 → ¬∃ k c, BlankCircle m plen bufsiz (e + 10) k c) := by
  refine ⟨nameLoop_returns_iff hplen, ?_, ?_⟩
  · rw [dnsNext_returns_iff, nameLoop_returns_iff hplen]
  · rw [dnsNextAnAsk_returns_iff, nameLoop_returns_iff hplen]
    refine or_congr_right (and_congr_right fun _ => ⟨fun h e txt hdec => ?_, fun h s hs => ?_⟩)
    · obtain ⟨s, hs, rfl, rfl⟩ := (returns_ok_iff hplen).mpr hdec
      rw [← nameLoop_returns_iff hplen]
      exact h s hs
    · rw [nameLoop_returns_iff hplen]
      exact h s.off s.str ((returns_ok_iff hplen).mp ⟨s, hs, rfl, rfl⟩)

end Calls

/-- A message with one question, whose name is a label of one zero byte and a pointer to this label.
-/
def circleMsg : Mem := fun i => [0, 0, 0, 0, 0, 1, 0, 0, 0, 0, 0, 0, 1, 0, 192, 12].getD i 0

theorem circleMsg_circle : BlankCircle circleMsg 17 64 12 1 1 where
  pos := by decide
  passes i hi := by
    have : i = 0 ∨ i = 1 := by omega
    rcases this with rfl | rfl
    · exact ⟨⟨12, [], none⟩, ⟨13, 1⟩, by decide, by decide, by decide, by decide⟩
    · exact ⟨⟨14, [], none⟩, ⟨13, 1⟩, by decide, by decide, by decide, by decide⟩
  back := ⟨⟨14, [], none⟩, ⟨14, [], some 16⟩, by decide, by decide, rfl, by decide⟩
  blank n q l hn hn' hq hl := by
    obtain rfl : n = 1 := by omega
    obtain rfl : q = ⟨14, [], none⟩ := Option.some.inj (hq.symm.trans (by decide))
    obtain rfl : l = ⟨13, 1⟩ := Option.some.inj (hl.symm.trans (by decide))
    exact ⟨by decide, by decide⟩

/-- On this message `dns_next` does not return. -/
theorem dnsNext_hangs : dnsNextInitQd circleMsg 17 = some (12, 1) ∧
    ¬∃ r, DnsNextReturns circleMsg 12 1 17 64 r := by
  refine ⟨by decide, ?_⟩
  rw [dnsNext_returns_iff, nameLoop_returns_iff (by decide)]
  simpa using ⟨1, 1, circleMsg_circle⟩

/-- The name `b`, and a question whose name is the label `a` and a pointer to it. -/
def pointerMsg : Mem :=
  fun i => [0, 0, 0, 0, 0, 1, 0, 0, 0, 0, 0, 0, 1, 98, 0, 1, 97, 192, 12, 0, 1, 0, 1].getD i 0

/-- The name is read as `a.b`, and so there is no circle. -/
theorem dns_names_return_pointer :
    (∃ r, DnsNextReturns pointerMsg 15 1 23 64 r ∧ r.ret.toOption = some ⟨[97, 46, 98], 1, 1⟩) ∧
      ¬∃ k c, BlankCircle pointerMsg 23 64 15 k c := by
  have hread : (dnsNext 3 pointerMsg 15 1 23 64).map (fun r => r.ret.toOption) =
      some (some ⟨[97, 46, 98], 1, 1⟩) := by decide +kernel
  obtain ⟨r, hr, hret⟩ := Option.map_eq_some_iff.mp hread
  have hreturns := (dns_names_return_iff pointerMsg (show 23 ≤ 65535 by decide) 15 1 64 0).2.1.mp
    ⟨r, 3, hr⟩
  exact ⟨⟨r, ⟨3, hr⟩, hret⟩, hreturns.resolve_left (by decide)⟩

end Pptk.Iphdr
