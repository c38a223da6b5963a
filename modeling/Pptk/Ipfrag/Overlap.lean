import Pptk.Ipfrag.RbExplicit

/-!
# Overlap detection for IPv6

In IPv6 mode the red-black tree engine keeps a fragment only if no byte of it was
received before and none is behind the end of the datagram (`Overlaps`, `keep`).
The code decides this from the one hole that the search finds, and a last fragment
that is rejected has still lowered the end of the datagram.

Main results: `HoleSet.inside_iff` and `rb_explicit_overlap_iff`.
-/

namespace Pptk.Ipfrag

open Pptk.Lib Pptk.Iphdr Pptk.Rbtree Function List Option

/-! ## The policy -/

/-- The fragment `f` has a byte in common with the fragments `kept`, or one behind the end of the
datagram that the fragments `seen` and `f` give. -/
def Overlaps (kept seen : List Frag) (f : Frag) : Prop :=
  ∃ i, f.Has i ∧ (Covered kept i ∨ mostRestrictingLast (seen ++ [f]) < i)

open Classical in
/-- The fragments kept and the fragments seen, after one more. -/
noncomputable def keep (st : List Frag × List Frag) (f : Frag) : List Frag × List Frag :=
  (if Overlaps st.1 st.2 f then st.1 else st.1 ++ [f], st.2 ++ [f])

/-- The fragments that are accepted without overlap. -/
noncomputable def keptFrags (fs : List Frag) : List Frag := (fs.foldl keep ([], [])).1

theorem foldl_keep_snd (fs : List Frag) (st : List Frag × List Frag) :
    (fs.foldl keep st).2 = st.2 ++ fs := by
  induction fs generalizing st with
  | nil => simp
  | cons f fs ih => rw [foldl_cons, ih, keep, append_assoc, singleton_append]

theorem keptFrags_append_of_overlaps {fs : List Frag} {f : Frag}
    (h : Overlaps (keptFrags fs) fs f) : keptFrags (fs ++ [f]) = keptFrags fs := by
  have hseen : (fs.foldl keep ([], [])).2 = fs := foldl_keep_snd fs ([], [])
  rw [keptFrags, foldl_append, foldl_cons, foldl_nil, keep, hseen]
  exact if_pos h

theorem keptFrags_append_of_not_overlaps (fs : List Frag) {f : Frag}
    (h : ¬Overlaps (keptFrags fs) fs f) : keptFrags (fs ++ [f]) = keptFrags fs ++ [f] := by
  have hseen : (fs.foldl keep ([], [])).2 = fs := foldl_keep_snd fs ([], [])
  rw [keptFrags, foldl_append, foldl_cons, foldl_nil, keep, hseen]
  exact if_neg h

/-! ## One fragment -/

section AddData

variable {ctx : RbExplicitReassctx} {ids : List RbholeLoc} {P : ℕ → Prop} {a b : ℕ}
  {n new : RbholeLoc}

theorem HoleSet.exists_hole (h : HoleSet ctx ids P) {i : ℕ} (hi : P i) :
    ∃ m ∈ ids, (ctx.rbhole m).Has i := by
  obtain ⟨g, hg, hhas⟩ := (h.points i).mpr hi
  obtain ⟨m, hm, rfl⟩ := mem_map.mp hg
  exact ⟨m, hm, hhas⟩

theorem HoleSet.of_has (h : HoleSet ctx ids P) (hn : n ∈ ids) {i : ℕ} (hi : (ctx.rbhole n).Has i) :
    P i :=
  (h.points i).mp ⟨_, mem_map_of_mem hn, hi⟩

theorem HoleSet.last_lt_first_or (h : HoleSet ctx ids P) {m : RbholeLoc} (hm : m ∈ ids)
    (hn : n ∈ ids) (hmn : m ≠ n) :
    (ctx.rbhole m).last < (ctx.rbhole n).first ∨ (ctx.rbhole n).last < (ctx.rbhole m).first := by
  obtain ⟨pre, post, rfl⟩ := append_of_mem hn
  have ha := h.ascending
  rw [map_append, map_cons, ascending_append, ascending_cons] at ha
  obtain ⟨_, ⟨_, hpost, _⟩, hpre⟩ := ha
  rcases mem_append.mp hm with hm | hm
  · exact .inl (hpre _ (mem_map_of_mem hm) _ (by simp))
  · rcases mem_cons.mp hm with hm | hm
    · exact absurd hm hmn
    · exact .inr (hpost _ (mem_map_of_mem hm))

/-- The hole that the search found contains the fragment exactly if all bytes of the fragment are
missing. -/
theorem HoleSet.inside_iff (h : HoleSet ctx ids P) (hap : Apart ctx.rbhole ids P) (hn : n ∈ ids)
    (hm : Meets ctx.rbhole a b n) :
    (ctx.rbhole n).first ≤ a ∧ b ≤ (ctx.rbhole n).last ↔ ∀ i, a ≤ i → i ≤ b → P i := by
  obtain ⟨hl, hf⟩ := hm
  constructor
  · intro ⟨h1, h2⟩ i hai hib
    exact h.of_has hn ⟨h1.trans hai, hib.trans h2⟩
  · intro hall
    have hle := h.first_le_last hn
    refine ⟨?_, ?_⟩
    · -- the byte before the hole would be in a hole that touches it
      by_contra hlt
      obtain ⟨m, hm, hhas⟩ := h.exists_hole (hall ((ctx.rbhole n).first - 1) (by omega) (by omega))
      obtain ⟨hm1, hm2⟩ := hhas
      have hmn : m ≠ n := by
        rintro rfl
        omega
      have hlast : (ctx.rbhole m).last + 1 = (ctx.rbhole n).first := by
        rcases h.last_lt_first_or hm hn hmn with hlt | hlt <;> omega
      apply hap m hm
      rw [hlast]
      exact h.of_has hn ⟨le_rfl, hle⟩
    · by_contra hlt
      exact hap n hn (hall _ (by omega) (by omega))

theorem addData_succ_ipv6 {fuel : ℕ} {mod : Bool} (hv6 : ctx.ipv6 = true)
    (ho : findHole ctx a b ctx.bound ctx.holeTree.root = some (some n)) (hab : a ≤ b)
    (h1 : (ctx.rbhole n).first ≤ a) (h2 : b ≤ (ctx.rbhole n).last) :
    addData a b new (fuel + 1) ctx mod =
      if b < (ctx.rbhole n).last ∧ (ctx.rbhole n).first < a then
        (splitHole ctx a b n new).map (·, true, false)
      else if (ctx.rbhole n).last ≤ b ∧ a ≤ (ctx.rbhole n).first then
        (ctx.holeTree.delete ctx.bound n).map fun t =>
          ((RbExplicitReassctx.setLast { ctx with holeTree := t } n (a + 65535)).setFirst n (b + 1),
            true, false)
      else if (ctx.rbhole n).last ≤ b then some (ctx.setLast n (a + 65535), true, false)
      else some (ctx.setFirst n (b + 1), true, false) := by
  have hin : ¬((ctx.rbhole n).first > a ∨ (ctx.rbhole n).last < b) := by omega
  simp only [addData, ho, bind_eq_bind, bind_some, hv6, hin, and_false, if_false,
    Bool.not_true, Bool.false_eq_true, trimHole, RbExplicitReassctx.setLast,
    RbExplicitReassctx.setFirst, update_self, update_idem, gt_iff_lt, ge_iff_le]
  split_ifs <;> first | omega | skip
  · cases splitHole ctx a b n new <;> rfl
  · cases ctx.holeTree.delete ctx.bound n <;> rfl
  all_goals rfl

theorem HoleSet.update_of_notMem (h : HoleSet ctx ids P) (hn : n ∉ ids) (g : Hole) :
    HoleSet { ctx with rbhole := update ctx.rbhole n g } ids P := by
  have hmap : ids.map (update ctx.rbhole n g) = ids.map ctx.rbhole := map_update_of_notMem hn g
  refine ⟨h.tree, ?_, fun i => ?_, h.lt⟩
  · rw [hmap]
    exact h.ascending
  · rw [hmap]
    exact h.points i

/-- `add_data` with a fragment that is inside a hole. -/
theorem addData_ipv6_inside (fuel : ℕ) (mod : Bool) (hv6 : ctx.ipv6 = true) (h : HoleSet ctx ids P)
    (hap : Apart ctx.rbhole ids P) (hnew : new ∉ ids) (hab : a ≤ b) (hb : ids.length < ctx.bound)
    (hall : ∀ i, a ≤ i → i ≤ b → P i) :
    ∃ t' r' ids', addData a b new (fuel + 1) ctx mod =
        some ({ ctx with holeTree := t', rbhole := r' }, true, false) ∧
      HoleSet { ctx with holeTree := t', rbhole := r' } ids' (fun i => P i ∧ ¬(a ≤ i ∧ i ≤ b)) ∧
      ids' ⊆ new :: ids ∧ Apart r' ids' fun i => P i ∧ ¬(a ≤ i ∧ i ≤ b) := by
  obtain ⟨o, ho, hsome, hnone⟩ := findHole_spec (a := a) (b := b) h.tree h.ascending hb.le
  obtain ⟨n, rfl⟩ : ∃ n, o = some n := by
    by_contra hno
    obtain ⟨m, hm, hhas⟩ := h.exists_hole (hall a le_rfl hab)
    have ho : o = none := eq_none_iff_forall_ne_some.mpr fun n hn => hno ⟨n, hn⟩
    exact hnone ho m hm ⟨hhas.2, hhas.1.trans hab⟩
  obtain ⟨hn, hmeets⟩ := hsome n rfl
  obtain ⟨h1, h2⟩ := (h.inside_iff hap hn hmeets).mpr hall
  have hlt := h.last_lt hn
  have hfirst : (b + 1) % 65536 = b + 1 ∨ (ctx.rbhole n).last ≤ b := by omega
  rw [addData_succ_ipv6 hv6 ho hab h1 h2]
  split_ifs with hsplit hdel hl
  · obtain ⟨t', r', ids', he, hset, hsub, hap'⟩ := splitHole_spec h hn hnew hab hsplit.2 hsplit.1 hb
    exact ⟨t', r', ids', by rw [he]; rfl, hset, hsub, hap' hap⟩
  · -- the hole is the fragment; the stores to it come after its removal
    obtain ⟨t1, ht1, hset⟩ := h.delete hn hb.le
    have hne : n ∉ ids.erase n := h.nodup.not_mem_erase
    have hpoints : ∀ i, P i ∧ ¬(ctx.rbhole n).Has i ↔ P i ∧ ¬(a ≤ i ∧ i ≤ b) := by
      intro i
      refine and_congr_right fun _ => not_congr ?_
      simp only [Gap.Has]
      omega
    have hset' := (hset.congr hpoints).update_of_notMem hne
      ⟨(b + 1) % 65536, (a + 65535) % 65536⟩
    refine ⟨t1, _, _, ?_, hset', fun m hm => mem_cons_of_mem _ (mem_of_mem_erase hm), ?_⟩
    · rw [ht1, map_some]
      simp only [RbExplicitReassctx.setLast, RbExplicitReassctx.setFirst, update_self, update_idem]
    · intro m hm hi
      simp only [update_of_ne (ne_of_mem_of_not_mem hm hne)] at hi
      exact hap m (mem_of_mem_erase hm) hi.1
  · have ha : (a + 65535) % 65536 = a - 1 := by omega
    have hset := h.shrink hn (g := ⟨(ctx.rbhole n).first, a - 1⟩) (by simp only; omega) le_rfl
      (by simp only; omega)
    have hpoints : ∀ i, P i ∧ ((ctx.rbhole n).Has i → Gap.Has ⟨(ctx.rbhole n).first, a - 1⟩ i) ↔
        P i ∧ ¬(a ≤ i ∧ i ≤ b) := by
      intro i
      refine and_congr_right fun _ => ?_
      simp only [Gap.Has]
      omega
    refine ⟨ctx.holeTree, _, ids, ?_, hset.congr hpoints, subset_cons_self _ _, ?_⟩
    · rw [RbExplicitReassctx.setLast, ha]
    · refine (hap.mono (List.Subset.refl _) fun _ hi => hi.1).update fun hi => hi.2 ?_
      simp only
      omega
  · have hset := h.shrink hn (g := ⟨b + 1, (ctx.rbhole n).last⟩) (by simp only; omega)
      (by simp only; omega) le_rfl
    have hpoints : ∀ i, P i ∧ ((ctx.rbhole n).Has i → Gap.Has ⟨b + 1, (ctx.rbhole n).last⟩ i) ↔
        P i ∧ ¬(a ≤ i ∧ i ≤ b) := by
      intro i
      refine and_congr_right fun _ => ?_
      simp only [Gap.Has]
      omega
    refine ⟨ctx.holeTree, _, ids, ?_, hset.congr hpoints, subset_cons_self _ _, ?_⟩
    · rw [RbExplicitReassctx.setFirst, hfirst.resolve_right hl]
    · exact (hap.mono (List.Subset.refl _) fun _ hi => hi.1).update fun hi => hap n hn hi.1

/-- `add_data` with a fragment that is not inside a hole. -/
theorem addData_ipv6_overlap (new : RbholeLoc) (fuel : ℕ) (mod : Bool) (hv6 : ctx.ipv6 = true)
    (h : HoleSet ctx ids P) (hap : Apart ctx.rbhole ids P) (hb : ids.length < ctx.bound)
    (hnot : ¬∀ i, a ≤ i → i ≤ b → P i) :
    addData a b new (fuel + 1) ctx mod = some (ctx, mod, true) := by
  obtain ⟨o, ho, hsome, _⟩ := findHole_spec (a := a) (b := b) h.tree h.ascending hb.le
  cases o with
  | none => simp only [addData, ho, bind_eq_bind, bind_some, hv6]
  | some n =>
    obtain ⟨hn, hmeets⟩ := hsome n rfl
    have hout : (ctx.rbhole n).first > a ∨ (ctx.rbhole n).last < b := by
      have := mt (h.inside_iff hap hn hmeets).mp hnot
      omega
    simp only [addData, ho, bind_eq_bind, bind_some]
    exact if_pos ⟨hv6, hout⟩

end AddData

/-! ## Whole runs -/

/-- The fragments of the packet list. -/
def RbExplicitReassctx.frags (ctx : RbExplicitReassctx) : List Frag :=
  ctx.packetList.filterMap fun e => e.2.accept

/-- Byte `i` of the datagram, which ends where `seen` says, is in no kept fragment. -/
def Outstanding (seen kept : List Frag) (i : ℕ) : Prop :=
  i ≤ mostRestrictingLast seen ∧ ¬Covered kept i

/-- The state of the engine in IPv6 mode after the packets `pkts`: the tree holds the bytes of the
datagram that no kept fragment covers, and the kept fragments are those of the policy. -/
structure RbExplicitInv6 (pkts : List Packet) (ctx : RbExplicitReassctx) : Prop where
  ipv6 : ctx.ipv6 = true
  last : ctx.mostRestrictingLast = mostRestrictingLast (pkts.filterMap Packet.accept)
  holes : ∃ ids, HoleSet ctx ids (Outstanding (pkts.filterMap Packet.accept) ctx.frags) ∧
    Apart ctx.rbhole ids (Outstanding (pkts.filterMap Packet.accept) ctx.frags) ∧
    ∀ n ∈ ids, n = .firstHole ∨ ∃ e ∈ ctx.packetList, n = .ofPacket e.1
  kept : ctx.frags = keptFrags (pkts.filterMap Packet.accept)
  lt : ∀ e ∈ ctx.packetList, e.1 < pkts.length

theorem rbExplicitReassctxInit_inv6 (heap : Heap RbholeLoc) (rbhole : RbholeLoc → Hole) :
    ∃ ctx, rbExplicitReassctxInit heap rbhole true = some ctx ∧ RbExplicitInv6 [] ctx := by
  obtain ⟨t, r, hinit, hr, hset⟩ := rbExplicitReassctxInit_spec heap rbhole true
  refine ⟨_, hinit, rfl, rfl, ⟨[.firstHole], hset.congr fun i => ?_, fun n hn hi => ?_, by simp⟩,
    rfl, by simp⟩
  · simp [Outstanding, RbExplicitReassctx.frags]
  · have hlast : (r n).last = 65535 := by rw [mem_singleton.mp hn, hr]
    have hle : (r n).last + 1 ≤ 65535 := hi.1
    omega

/-- The fragment overlaps exactly if not all of its bytes are outstanding. -/
theorem overlaps_iff {kept seen : List Frag} {f : Frag} :
    Overlaps kept seen f ↔ ¬∀ i, f.first ≤ i → i ≤ f.last →
      Outstanding seen kept i ∧ i ≤ mostRestrictingLast (seen ++ [f]) := by
  have hle := mostRestrictingLast_append_le seen f
  simp only [Overlaps, Frag.Has, Outstanding, not_forall]
  constructor
  · rintro ⟨i, ⟨h1, h2⟩, hi⟩
    refine ⟨i, h1, h2, fun hall => ?_⟩
    rcases hi with hi | hi
    · exact hall.1.2 hi
    · exact absurd hall.2 (not_le.mpr hi)
  · rintro ⟨i, h1, h2, hi⟩
    refine ⟨i, ⟨h1, h2⟩, ?_⟩
    by_contra hno
    rw [not_or, not_lt] at hno
    exact hi ⟨⟨hno.2.trans hle, hno.1⟩, hno.2⟩

theorem outstanding_append (seen kept : List Frag) (f : Frag) (i : ℕ) :
    Outstanding (seen ++ [f]) kept i ↔
      Outstanding seen kept i ∧ i ≤ mostRestrictingLast (seen ++ [f]) := by
  have hle := mostRestrictingLast_append_le seen f
  simp only [Outstanding]
  constructor
  · intro ⟨h1, h2⟩
    exact ⟨⟨h1.trans hle, h2⟩, h1⟩
  · intro ⟨⟨_, h2⟩, h1⟩
    exact ⟨h1, h2⟩

theorem outstanding_keep (seen kept : List Frag) (f : Frag) (i : ℕ) :
    Outstanding seen (kept ++ [f]) i ↔ Outstanding seen kept i ∧ ¬(f.first ≤ i ∧ i ≤ f.last) := by
  simp only [Outstanding, covered_append, covered_singleton, Frag.Has, not_or, and_assoc]

section Step

variable {pkts : List Packet} {ctx : RbExplicitReassctx} {pkt : Packet} {f : Frag}

theorem filterMap_accept_append (pkts : List Packet) (hacc : pkt.accept = some f) :
    (pkts ++ [pkt]).filterMap Packet.accept = pkts.filterMap Packet.accept ++ [f] := by
  simp [hacc]

/-- A packet that is not accepted keeps `RbExplicitInv6`. -/
theorem RbExplicitInv6.malformed (h : RbExplicitInv6 pkts ctx) (hacc : pkt.accept = none) :
    ∃ ctx', rbExplicitReassctxAdd ctx pkts.length pkt = some (ctx', none) ∧
      RbExplicitInv6 (pkts ++ [pkt]) ctx' := by
  have hfs : (pkts ++ [pkt]).filterMap Packet.accept = pkts.filterMap Packet.accept := by
    simp [hacc]
  obtain ⟨hv6, hlast, ⟨ids, hset, hap, hsub⟩, hkept, hlt⟩ := h
  refine ⟨{ ctx with freed := ctx.freed ++ [pkts.length] }, by rw [rbExplicitReassctxAdd, hacc],
    hv6, ?_, ⟨ids, ?_, ?_, hsub⟩, ?_, fun e he => ?_⟩
  · rw [hfs]
    exact hlast
  · rw [hfs]
    exact ⟨hset.tree, hset.ascending, hset.points, hset.lt⟩
  · rw [hfs]
    exact hap
  · rw [hfs]
    exact hkept
  · exact (hlt e he).trans (by simp)

/-- After the end of the datagram was lowered for the fragment `f` of the next packet. -/
theorem RbExplicitInv6.lowered (h : RbExplicitInv6 pkts ctx) (f : Frag) :
    ∃ ctx1 ids, (if f.more = false ∧ ctx.mostRestrictingLast > f.last then
          repairMostRestricting ctx.bound { ctx with mostRestrictingLast := f.last }
        else some ctx) = some ctx1 ∧
      ctx1.packetList = ctx.packetList ∧ ctx1.freed = ctx.freed ∧ ctx1.ipv6 = true ∧
      ctx1.mostRestrictingLast = mostRestrictingLast (pkts.filterMap Packet.accept ++ [f]) ∧
      HoleSet ctx1 ids (Outstanding (pkts.filterMap Packet.accept ++ [f]) ctx.frags) ∧
      Apart ctx1.rbhole ids (Outstanding (pkts.filterMap Packet.accept ++ [f]) ctx.frags) ∧
      ∀ n ∈ ids, n = .firstHole ∨ ∃ e ∈ ctx.packetList, n = .ofPacket e.1 := by
  obtain ⟨hv6, hlast, ⟨ids, hset, hap, hsub⟩, _, _⟩ := h
  obtain ⟨t1, r1, ids1, he1, hset1, hsub1, hap1⟩ :=
    lowerLast_spec (f := f) hlast hset (fun _ hi => hi.1) (length_lt_bound hset.nodup hsub)
  refine ⟨_, ids1, he1, rfl, rfl, hv6, rfl,
    hset1.congr fun i => (outstanding_append _ _ f i).symm, ?_, fun n hn => hsub n (hsub1 hn)⟩
  exact (hap1 hap).mono (List.Subset.refl _) fun i hi => (outstanding_append _ _ f i).mp hi

/-- A fragment that overlaps keeps `RbExplicitInv6`. -/
theorem RbExplicitInv6.overlapping (h : RbExplicitInv6 pkts ctx) (hacc : pkt.accept = some f)
    (hov : Overlaps ctx.frags (pkts.filterMap Packet.accept) f) :
    ∃ ctx', rbExplicitReassctxAdd ctx pkts.length pkt = some (ctx', some true) ∧
      ctx'.packetList = ctx.packetList ∧ ctx'.freed = ctx.freed ++ [pkts.length] ∧
      RbExplicitInv6 (pkts ++ [pkt]) ctx' := by
  obtain ⟨ctx1, ids, he1, hpl, hfr, hv6, hlast, hset, hap, hsub⟩ := h.lowered f
  have hb : ids.length < ctx1.bound := length_lt_bound hset.nodup (by rwa [hpl])
  have hnot := overlaps_iff.mp hov
  simp only [← outstanding_append] at hnot
  have hadd := addData_ipv6_overlap (.ofPacket pkts.length) (ctx1.packetList.length + 1)
    (decide (f.more = false ∧ ctx.mostRestrictingLast > f.last)) hv6 hset hap hb hnot
  have hfrags : ctx1.frags = ctx.frags := by
    rw [RbExplicitReassctx.frags, hpl, RbExplicitReassctx.frags]
  have hfs := filterMap_accept_append pkts hacc
  refine ⟨{ ctx1 with freed := ctx1.freed ++ [pkts.length] }, ?_, hpl, by rw [← hfr], hv6, ?_,
    ⟨ids, ?_, ?_, ?_⟩, ?_, fun e he => ?_⟩
  · simp only [rbExplicitReassctxAdd, hacc, he1, bind_eq_bind, bind_some]
    rw [RbExplicitReassctx.bound, hadd]
    simp
  · rw [hfs]
    exact hlast
  · rw [hfs]
    show HoleSet _ ids (Outstanding _ ctx1.frags)
    rw [hfrags]
    exact ⟨hset.tree, hset.ascending, hset.points, hset.lt⟩
  · rw [hfs]
    show Apart ctx1.rbhole ids (Outstanding _ ctx1.frags)
    rw [hfrags]
    exact hap
  · show ∀ n ∈ ids, n = .firstHole ∨ ∃ e ∈ ctx1.packetList, n = .ofPacket e.1
    rw [hpl]
    exact hsub
  · show ctx1.frags = _
    rw [hfrags, hfs, keptFrags_append_of_overlaps (h.kept ▸ hov), h.kept]
  · have hlt := h.lt e (hpl ▸ he)
    rw [length_append]
    omega

/-- A fragment that does not overlap keeps `RbExplicitInv6`. -/
theorem RbExplicitInv6.accepted (h : RbExplicitInv6 pkts ctx) (hacc : pkt.accept = some f)
    (hov : ¬Overlaps ctx.frags (pkts.filterMap Packet.accept) f) :
    ∃ ctx', rbExplicitReassctxAdd ctx pkts.length pkt = some (ctx', some false) ∧
      ctx'.packetList = ctx.packetList ++ [(pkts.length, pkt)] ∧ ctx'.freed = ctx.freed ∧
      RbExplicitInv6 (pkts ++ [pkt]) ctx' := by
  obtain ⟨ctx1, ids, he1, hpl, hfr, hv6, hlast, hset, hap, hsub⟩ := h.lowered f
  have hb : ids.length < ctx1.bound := length_lt_bound hset.nodup (by rwa [hpl])
  have hall := not_not.mp (mt overlaps_iff.mpr hov)
  simp only [← outstanding_append] at hall
  have hnew : RbholeLoc.ofPacket pkts.length ∉ ids := by
    intro hm
    rcases hsub _ hm with hm | ⟨e, he, hm⟩
    · cases hm
    · have hlt := h.lt e he
      rw [RbholeLoc.ofPacket.injEq] at hm
      omega
  obtain ⟨t', r', ids', hadd, hset', hsub', hap'⟩ := addData_ipv6_inside
    (ctx1.packetList.length + 1)
    (decide (f.more = false ∧ ctx.mostRestrictingLast > f.last)) hv6 hset hap hnew f.le hb hall
  have hfs := filterMap_accept_append pkts hacc
  have hfrags : RbExplicitReassctx.frags { ctx1 with
      packetList := ctx1.packetList ++ [(pkts.length, pkt)], holeTree := t', rbhole := r' } =
      ctx.frags ++ [f] := by
    simp [RbExplicitReassctx.frags, hpl, hacc]
  refine ⟨{ ctx1 with
      packetList := ctx1.packetList ++ [(pkts.length, pkt)], holeTree := t', rbhole := r' },
    ?_, by rw [← hpl], hfr, hv6, ?_, ⟨ids', ?_, ?_, fun n hn => ?_⟩, ?_, fun e he => ?_⟩
  · simp only [rbExplicitReassctxAdd, hacc, he1, bind_eq_bind, bind_some]
    rw [RbExplicitReassctx.bound, hadd]
    simp
  · rw [hfs]
    exact hlast
  · rw [hfs, hfrags]
    have hset'' := hset'.congr fun i => (outstanding_keep _ _ f i).symm
    exact ⟨hset''.tree, hset''.ascending, hset''.points, hset''.lt⟩
  · rw [hfs, hfrags]
    exact hap'.mono (List.Subset.refl _) fun i hi => (outstanding_keep _ _ f i).mp hi
  · rcases mem_cons.mp (hsub' hn) with rfl | hn
    · exact .inr ⟨(pkts.length, pkt), by simp, rfl⟩
    · rcases hsub n hn with hn | ⟨e, he, hn⟩
      · exact .inl hn
      · exact .inr ⟨e, by simp [hpl, he], hn⟩
  · rw [hfrags, hfs, keptFrags_append_of_not_overlaps _ (h.kept ▸ hov), h.kept]
  · simp only [hpl, mem_append, mem_singleton] at he
    rw [length_append, length_singleton]
    rcases he with he | rfl
    · exact (h.lt e he).trans (Nat.lt_succ_self _)
    · exact Nat.lt_succ_self _

end Step

theorem rbExplicitReassctxRun_inv6 (heap : Heap RbholeLoc) (rbhole : RbholeLoc → Hole)
    (pkts : List Packet) :
    ∃ ctx, rbExplicitReassctxRun heap rbhole true pkts = some ctx ∧ RbExplicitInv6 pkts ctx := by
  induction pkts using reverseRecOn with
  | nil =>
    obtain ⟨ctx, hinit, h⟩ := rbExplicitReassctxInit_inv6 heap rbhole
    exact ⟨ctx, by rw [rbExplicitReassctxRun, hinit]; rfl, h⟩
  | append_singleton pkts pkt ih =>
    obtain ⟨ctx, hctx, h⟩ := ih
    cases hacc : pkt.accept with
    | none =>
      obtain ⟨ctx', hadd, h'⟩ := h.malformed hacc
      exact ⟨ctx', rbExplicitReassctxRun_append hctx hadd, h'⟩
    | some f =>
      by_cases hov : Overlaps ctx.frags (pkts.filterMap Packet.accept) f
      · obtain ⟨ctx', hadd, _, _, h'⟩ := h.overlapping hacc hov
        exact ⟨ctx', rbExplicitReassctxRun_append hctx hadd, h'⟩
      · obtain ⟨ctx', hadd, _, _, h'⟩ := h.accepted hacc hov
        exact ⟨ctx', rbExplicitReassctxRun_append hctx hadd, h'⟩

/-- In IPv6 mode, after every sequence of packets: the packets in the list are the fragments that
were accepted without overlap, and the next well-formed fragment is reported as overlapping exactly
when it contains a byte of those or a byte behind the smallest end of a last fragment, the ends of
rejected fragments and its own included. A fragment that is reported is freed, every other one is
kept. -/
theorem rb_explicit_overlap_iff (heap : Heap RbholeLoc) (rbhole : RbholeLoc → Hole)
    (pkts : List Packet) (pkt : Packet) (f : Frag) (hacc : pkt.accept = some f) :
    let fs := pkts.filterMap Packet.accept
    ∃ ctx ctx' overlap, rbExplicitReassctxRun heap rbhole true pkts = some ctx ∧
      rbExplicitReassctxAdd ctx pkts.length pkt = some (ctx', some overlap) ∧
      ctx.frags = keptFrags fs ∧
      (overlap = true ↔
        ∃ i, f.Has i ∧ (Covered (keptFrags fs) i ∨ mostRestrictingLast (fs ++ [f]) < i)) ∧
      (overlap = true →
        ctx'.packetList = ctx.packetList ∧ ctx'.freed = ctx.freed ++ [pkts.length]) ∧
      (overlap = false →
        ctx'.packetList = ctx.packetList ++ [(pkts.length, pkt)] ∧ ctx'.freed = ctx.freed) := by
  intro fs
  obtain ⟨ctx, hrun, h⟩ := rbExplicitReassctxRun_inv6 heap rbhole pkts
  by_cases hov : Overlaps ctx.frags fs f
  · obtain ⟨ctx', hadd, hpl, hfr, _⟩ := h.overlapping hacc hov
    refine ⟨ctx, ctx', true, hrun, hadd, h.kept, ⟨fun _ => ?_, fun _ => rfl⟩, fun _ => ⟨hpl, hfr⟩,
      fun hno => nomatch hno⟩
    rw [← h.kept]
    exact hov
  · obtain ⟨ctx', hadd, hpl, hfr, _⟩ := h.accepted hacc hov
    refine ⟨ctx, ctx', false, hrun, hadd, h.kept, ⟨(fun hno => nomatch hno), fun hex => ?_⟩,
      (fun hno => nomatch hno), fun _ => ⟨hpl, hfr⟩⟩
    rw [← h.kept] at hex
    exact absurd hex hov

/-- The first eight bytes of a longer datagram. -/
def firstFragment : Packet where
  direction := .uplink
  sz := 42
  data := fun i => if i = 14 then 0x45 else if i = 17 then 28 else if i = 20 then 0x20 else 0

/-- The bytes of `firstFragment`. -/
def firstFragmentFrag : Frag := ⟨0, 7, true, rfl, by decide, by decide⟩

theorem firstFragment_accept : firstFragment.accept = some firstFragmentFrag := by decide

theorem keptFrags_firstFragment : keptFrags [firstFragmentFrag] = [firstFragmentFrag] := by
  refine keptFrags_append_of_not_overlaps [] ?_
  rintro ⟨i, ⟨_, hi⟩, hcov | hlast⟩
  · exact not_covered_nil i hcov
  · have hi : i ≤ 7 := hi
    have hlast : 65535 < i := hlast
    omega

/-- The same packet a second time is reported and not kept. -/
theorem rb_explicit_overlap_iff_twice :
    firstFragment.accept = some firstFragmentFrag ∧ ∃ ctx ctx',
      rbExplicitReassctxRun (fun _ => ⟨false, none, none, none⟩) (fun _ => ⟨0, 0⟩) true
        [firstFragment] = some ctx ∧
      rbExplicitReassctxAdd ctx 1 firstFragment = some (ctx', some true) ∧
      ctx'.packetList = ctx.packetList ∧ ctx'.freed = ctx.freed ++ [1] := by
  refine ⟨firstFragment_accept, ?_⟩
  obtain ⟨ctx, ctx', overlap, hrun, hadd, _, hiff, htrue, _⟩ := rb_explicit_overlap_iff
    (fun _ => ⟨false, none, none, none⟩) (fun _ => ⟨0, 0⟩) [firstFragment] firstFragment _
    firstFragment_accept
  have hfs : [firstFragment].filterMap Packet.accept = [firstFragmentFrag] := by
    rw [filterMap_cons_some firstFragment_accept, filterMap_nil]
  rw [hfs, keptFrags_firstFragment] at hiff
  obtain rfl : overlap = true :=
    hiff.mpr ⟨0, ⟨le_rfl, Nat.zero_le _⟩, .inl ⟨_, mem_singleton.mpr rfl, le_rfl, Nat.zero_le _⟩⟩
  exact ⟨ctx, ctx', hrun, hadd, htrue rfl⟩

end Pptk.Ipfrag
