/-
# LogVol.ReplayDivide — what one process of a replay reads and inserts.

The bounds a process computes are where its first section starts and its last one ends, cut to an `int`
(`divideJobs_eq`). When nothing is cut it walks over the entries of these sections and inserts those its
stride hits, or all of them in a file without metadata sharing (`parseMetaDset_run`).
-/
import LogVol.ReplayMeta
import LogVol.Lib.Division

namespace LogVol

open Lib (cut)

/-! ## §1 — the two loops. -/

/-- The entries a process inserts of those it walks over, counting from `j`. -/
def pick (off stride : I32) : I32 → PlacedEntries → PlacedEntries
  | _, [] => []
  | j, x :: xs =>
      if (j - off).srem stride == 0 then x :: pick off stride (j + 1) xs else pick off stride (j + 1) xs

/-- What a process inserts of the entries it walks over. -/
def taken (share : Bool) (stride : I32) (xs : PlacedEntries) : PlacedEntries :=
  if share then pick 0 stride 0 xs else xs

variable {z : Option Zlib} {share : Bool} {dsets : List DsetInfo} {sec : MetaSec}

theorem replayDset_eq {did : I32} {d : Option DsetInfo} (h : dsetAt (dsets.map some) did = .ok d) :
    ∃ dset, d = some dset ∧ replayDset dsets did = .ok dset := by
  unfold dsetAt at h
  unfold replayDset
  rw [List.getElem?_map] at h
  rcases hget : dsets[did.toNat]? with _ | dset
  · rw [hget] at h
    cases h
  · rw [hget] at h
    exact ⟨dset, (Except.ok.inj h).symm, rfl⟩

theorem MetaSec.responsible_eq (hstride : sec.stride ≠ 0) (j : I32) :
    sec.responsible j = .ok ((j - sec.off).srem sec.stride == 0) := by
  rw [MetaSec.responsible, if_neg hstride]

/-- A buffer that goes on with an entry: its header, and where the next entry is. -/
theorem walk_cons (pre tail : List UInt8) {r : WReq} (hsize : r.WellSized) :
    ¬ ((pre ++ (r.metaBuf ++ tail)).length : Int) ≤ pre.length ∧
      (pre ++ (r.metaBuf ++ tail)).drop (pre.length : Int).toNat = r.metaBuf ++ tail ∧
      readHdr.run (r.metaBuf ++ tail) = .ok (r.hdr, r.body ++ tail) ∧
      (pre.length : Int) + r.hdr.metaSize.toInt = ((pre ++ r.metaBuf).length : Nat) := by
  have hlen : (r.metaBuf.length : Int) = r.hdr.metaSize.toInt := hsize
  have hpos := r.metaBuf_pos
  refine ⟨?_, ?_, ?_, ?_⟩
  · rw [List.length_append, List.length_append]
    omega
  · rw [Int.toNat_natCast, List.drop_left]
  · rw [WReq.metaBuf, List.append_assoc]
    exact readHdr_reads r.hdr (r.body ++ tail)
  · rw [List.length_append, ← hlen, Nat.cast_add]

/-- Where every dataset is open, an entry comes out of the first request. -/
theorem Parses.first {p : Int} {c : BlockCache} {r : WReq} {rs : List WReq} {os : List (Option MetaEntry)}
    (h : Parses (listParser z) share (dsets.map some) p c (r :: rs) os) :
    ∃ dset e os', r.WellSized ∧ replayDset dsets r.hdr.did = .ok dset ∧
      (∀ tail, (listParser z).entryAt share dset r.hdr (r.metaBuf ++ tail) p c = .ok e) ∧
      Parses (listParser z) share (dsets.map some) (p + r.metaBuf.length)
        ((listParser z).after share r.hdr p e c) rs os' ∧ os = some e :: os' := by
  rcases h with _ | ⟨-, hdset, -⟩ | ⟨hsize, hdset, hentry, hrest⟩
  · obtain ⟨dset, hnone, -⟩ := replayDset_eq hdset
    cases hnone
  · obtain ⟨dset', hsome, hreplay⟩ := replayDset_eq hdset
    obtain rfl := Option.some.inj hsome
    exact ⟨_, _, _, hsize, hreplay, hentry, hrest, rfl⟩

theorem Parses.none_left {p : Int} {c : BlockCache} {os : List (Option MetaEntry)}
    (h : Parses (listParser z) share (dsets.map some) p c [] os) : os = [] :=
  List.length_eq_zero_iff.mp h.length_eq

theorem Parses.isSome {p : Int} {c : BlockCache} {rs : List WReq} {os : List (Option MetaEntry)}
    (h : Parses (listParser z) share (dsets.map some) p c rs os) : ∀ o ∈ os, o.isSome := by
  induction rs generalizing p c os with
  | nil =>
      rw [h.none_left]
      exact fun _ ho => absurd ho List.not_mem_nil
  | cons r rs ih =>
      obtain ⟨dset, e, os, -, -, -, hrest, rfl⟩ := h.first
      exact List.forall_mem_cons.mpr ⟨rfl, ih hrest⟩

/-- With metadata sharing every entry is parsed, and some are inserted. -/
theorem sharedLoop_parses {p : Int} {c : BlockCache} {rs : List WReq} {os : List (Option MetaEntry)}
    (h : Parses (listParser z) true (dsets.map some) p c rs os) (hstride : sec.stride ≠ 0) (pre : List UInt8)
    (hpre : (pre.length : Int) = p) {fuel : Nat} (hfuel : rs.length < fuel) (j : I32)
    (reqs : PlacedEntries) :
    sharedLoop z dsets sec (pre ++ rs.flatMap WReq.metaBuf) fuel j p c reqs =
      .ok (reqs ++ pick sec.off sec.stride j (placeEntries (sec.start.toInt + p) rs os)) := by
  induction rs generalizing p c os pre fuel j reqs with
  | nil =>
      obtain ⟨fuel, rfl⟩ := Nat.exists_eq_add_of_lt hfuel
      subst hpre
      rw [h.none_left, sharedLoop, if_pos (by simp)]
      simp [placeEntries, pick]
  | cons r rs ih =>
      obtain ⟨fuel, rfl⟩ : ∃ n, fuel = n + 1 := ⟨fuel - 1, by simp at hfuel; omega⟩
      obtain ⟨dset, e, os, hsize, hdset, hentry, hrest, rfl⟩ := h.first
      subst hpre
      obtain ⟨hinside, hdrop, hread, hnext⟩ := walk_cons pre (rs.flatMap WReq.metaBuf) hsize
      rw [List.flatMap_cons, sharedLoop, if_neg hinside, if_neg (by omega), hdrop]
      simp only [hread, Lib.ok_bind]
      rw [hdset, Lib.ok_bind, parseEntry_listParser (hentry _), Lib.ok_bind, MetaSec.responsible_eq hstride,
        Lib.ok_bind, hnext, ← List.append_assoc]
      have hloop := ih hrest (pre ++ r.metaBuf) (by rw [List.length_append, Nat.cast_add])
        (by simpa using hfuel) (j + 1)
        (if (j - sec.off).srem sec.stride == 0 then reqs ++ [(sec.start.toInt + pre.length, e)] else reqs)
      rw [List.length_append, Nat.cast_add, hloop, placeEntries, Option.toList_some, List.map_singleton,
        List.singleton_append, pick, ← add_assoc]
      split
      · rw [List.append_assoc, List.singleton_append]
      · rfl

theorem zero_srem (stride : I32) : (0 : I32).srem stride = 0 := by
  apply BitVec.eq_of_toInt_eq
  rw [BitVec.toInt_srem]
  simp

/-- The counter meets a value that the stride divides before it has taken all values. -/
theorem exists_hit (off stride j : I32) :
    ∃ m < 2 ^ 32, ((j + BitVec.ofNat 32 m - off).srem stride == 0) = true ∧
      ∀ i < m, ((j + BitVec.ofNat 32 i - off).srem stride == 0) = false := by
  have hlast : ((j + BitVec.ofNat 32 (off - j).toNat - off).srem stride == 0) = true := by
    have hzero : j + BitVec.ofNat 32 (off - j).toNat - off = 0 := by
      rw [BitVec.ofNat_toNat, BitVec.setWidth_eq]
      simp
    rw [hzero, zero_srem]
    rfl
  have hex : ∃ m, ((j + BitVec.ofNat 32 m - off).srem stride == 0) = true := ⟨_, hlast⟩
  refine ⟨Nat.find hex, ?_, Nat.find_spec hex, fun i hi => ?_⟩
  · exact Nat.lt_of_le_of_lt (Nat.find_min' hex hlast) (off - j).isLt
  · exact Bool.eq_false_iff.mpr (Nat.find_min hex hi)

/-- Counting on, without an entry inserted. -/
theorem plainLoop_skip (hstride : sec.stride ≠ 0) {buf : List UInt8} {ep : Int}
    (hinside : ¬ (buf.length : Int) ≤ ep) (hep : ¬ ep < 0) (fuel : Nat) (reqs : PlacedEntries) :
    ∀ (m : Nat) (j : I32),
      (∀ i < m, ((j + BitVec.ofNat 32 i - sec.off).srem sec.stride == 0) = false) →
      plainLoop z dsets sec buf (fuel + m) j ep reqs =
        plainLoop z dsets sec buf fuel (j + BitVec.ofNat 32 m) ep reqs := by
  intro m
  induction m with
  | zero =>
      intro j _
      rw [Nat.add_zero]
      congr 1
      simp
  | succ m ih =>
      intro j hmiss
      have hfirst := hmiss 0 (Nat.succ_pos m)
      have hzero : j + BitVec.ofNat 32 0 = j := BitVec.add_zero j
      rw [hzero] at hfirst
      have hnext : ∀ i < m, ((j + 1 + BitVec.ofNat 32 i - sec.off).srem sec.stride == 0) = false := by
        intro i hi
        have := hmiss (i + 1) (Nat.succ_lt_succ hi)
        rwa [BitVec.ofNat_add, BitVec.add_comm (BitVec.ofNat 32 i), ← BitVec.add_assoc] at this
      rw [← Nat.add_assoc, plainLoop, if_neg hinside, if_neg hep, MetaSec.responsible_eq hstride]
      show (if (_ == 0) = true then _ else _) = _
      rw [hfirst, if_neg (by decide), ih (j + 1) hnext, BitVec.ofNat_add, BitVec.add_comm (BitVec.ofNat 32 m),
        ← BitVec.add_assoc]
      rfl

/-- Without metadata sharing every entry is inserted, whatever the stride. -/
theorem plainLoop_parses {p : Int} {c : BlockCache} {rs : List WReq} {os : List (Option MetaEntry)}
    (h : Parses (listParser z) false (dsets.map some) p c rs os) (hstride : sec.stride ≠ 0) (pre : List UInt8)
    (hpre : (pre.length : Int) = p) {fuel turn : Nat} (hturn : turn = 2 ^ 32)
    (hfuel : rs.length * turn < fuel) (j : I32) (reqs : PlacedEntries) :
    plainLoop z dsets sec (pre ++ rs.flatMap WReq.metaBuf) fuel j p reqs =
      .ok (reqs ++ placeEntries (sec.start.toInt + p) rs os) := by
  induction rs generalizing p c os pre fuel j reqs with
  | nil =>
      obtain ⟨fuel, rfl⟩ := Nat.exists_eq_add_of_lt hfuel
      subst hpre
      rw [h.none_left, plainLoop, if_pos (by simp)]
      simp [placeEntries]
  | cons r rs ih =>
      -- The counter comes round to this entry after fewer than 2^32 steps, and the entry is still there then.
      obtain ⟨m, hm, hhit, hmiss⟩ := exists_hit sec.off sec.stride j
      rw [← hturn] at hm
      rw [List.length_cons, Nat.succ_mul] at hfuel
      obtain ⟨fuel, rfl⟩ : ∃ n, fuel = n + 1 + m := ⟨fuel - m - 1, by omega⟩
      have hleft : rs.length * turn < fuel := by omega
      obtain ⟨dset, e, os, hsize, hdset, hentry, hrest, rfl⟩ := h.first
      subst hpre
      obtain ⟨hinside, hdrop, hread, hnext⟩ := walk_cons pre (rs.flatMap WReq.metaBuf) hsize
      have hdec := hentry (rs.flatMap WReq.metaBuf)
      rw [EntryParser.entryAt_unshared, listParser_plain] at hdec
      rw [List.flatMap_cons, plainLoop_skip hstride hinside (by omega) _ _ m j hmiss, plainLoop,
        if_neg hinside, if_neg (by omega), MetaSec.responsible_eq hstride, hdrop, Lib.ok_bind, if_pos hhit]
      simp only [hread, Lib.ok_bind]
      rw [hdset, Lib.ok_bind, hdec, Lib.ok_bind]
      have hloop := ih hrest (pre ++ r.metaBuf) (by rw [List.length_append, Nat.cast_add]) hleft
        (j + BitVec.ofNat 32 m + 1) (reqs ++ [(sec.start.toInt + pre.length, e)])
      rw [hnext, ← List.append_assoc, List.length_append, Nat.cast_add, hloop, placeEntries,
        Option.toList_some, List.map_singleton, List.append_assoc, ← add_assoc]

/-- A stride of zero ends the walk at the first entry. -/
theorem sharedLoop_trap {p : Int} {c : BlockCache} {r : WReq} {rs : List WReq} {os : List (Option MetaEntry)}
    (h : Parses (listParser z) true (dsets.map some) p c (r :: rs) os) (hstride : sec.stride = 0)
    (pre : List UInt8) (hpre : (pre.length : Int) = p) (fuel : Nat) (j : I32) (reqs : PlacedEntries) :
    sharedLoop z dsets sec (pre ++ (r :: rs).flatMap WReq.metaBuf) (fuel + 1) j p c reqs =
      .error .trap := by
  obtain ⟨dset, e, os, hsize, hdset, hentry, -, rfl⟩ := h.first
  subst hpre
  obtain ⟨hinside, hdrop, hread, -⟩ := walk_cons pre (rs.flatMap WReq.metaBuf) hsize
  rw [List.flatMap_cons, sharedLoop, if_neg hinside, if_neg (by omega), hdrop]
  simp only [hread, Lib.ok_bind]
  rw [hdset, Lib.ok_bind, parseEntry_listParser (hentry _), Lib.ok_bind, MetaSec.responsible,
    if_pos hstride]
  rfl

theorem plainLoop_trap {r : WReq} (hsize : r.WellSized) (hstride : sec.stride = 0) (tail : List UInt8)
    (fuel : Nat) (j : I32) (reqs : PlacedEntries) :
    plainLoop z dsets sec (r.metaBuf ++ tail) (fuel + 1) j 0 reqs = .error .trap := by
  obtain ⟨hinside, -⟩ := walk_cons [] tail hsize
  rw [plainLoop, if_neg (by simpa using hinside), if_neg (by omega), MetaSec.responsible, if_pos hstride]
  rfl

/-- An inserted entry lies in the buffer. -/
theorem sharedLoop_bounds {buf : List UInt8} {fuel : Nat} {j : I32} {ep : Int} {c : BlockCache}
    {reqs out : PlacedEntries} (h : sharedLoop z dsets sec buf fuel j ep c reqs = .ok out)
    {x : Int × MetaEntry} (hx : x ∈ out) :
    x ∈ reqs ∨ sec.start.toInt ≤ x.1 ∧ x.1 < sec.start.toInt + buf.length := by
  induction fuel generalizing j ep c reqs with
  | zero => cases h
  | succ fuel ih =>
      rw [sharedLoop] at h
      split at h
      · obtain rfl := Except.ok.inj h
        exact Or.inl hx
      · split at h
        · cases h
        · obtain ⟨⟨hdr, tail⟩, -, h⟩ := Lib.bind_eq_ok.mp h
          obtain ⟨dset, -, h⟩ := Lib.bind_eq_ok.mp h
          obtain ⟨⟨block, c'⟩, -, h⟩ := Lib.bind_eq_ok.mp h
          obtain ⟨mine, -, h⟩ := Lib.bind_eq_ok.mp h
          rcases ih h with hmem | hbound
          · split at hmem
            · rcases List.mem_append.mp hmem with hmem | hmem
              · exact Or.inl hmem
              · rw [List.mem_singleton.mp hmem]
                right
                show _ ≤ sec.start.toInt + ep ∧ sec.start.toInt + ep < _
                omega
            · exact Or.inl hmem
          · exact Or.inr hbound

theorem plainLoop_bounds {buf : List UInt8} {fuel : Nat} {j : I32} {ep : Int} {reqs out : PlacedEntries}
    (h : plainLoop z dsets sec buf fuel j ep reqs = .ok out) {x : Int × MetaEntry} (hx : x ∈ out) :
    x ∈ reqs ∨ sec.start.toInt ≤ x.1 ∧ x.1 < sec.start.toInt + buf.length := by
  induction fuel generalizing j ep reqs with
  | zero => cases h
  | succ fuel ih =>
      rw [plainLoop] at h
      split at h
      · obtain rfl := Except.ok.inj h
        exact Or.inl hx
      · split at h
        · cases h
        · obtain ⟨mine, -, h⟩ := Lib.bind_eq_ok.mp h
          split at h
          · obtain ⟨⟨hdr, tail⟩, -, h⟩ := Lib.bind_eq_ok.mp h
            obtain ⟨dset, -, h⟩ := Lib.bind_eq_ok.mp h
            obtain ⟨block, -, h⟩ := Lib.bind_eq_ok.mp h
            rcases ih h with hmem | hbound
            · rcases List.mem_append.mp hmem with hmem | hmem
              · exact Or.inl hmem
              · rw [List.mem_singleton.mp hmem]
                right
                show _ ≤ sec.start.toInt + ep ∧ sec.start.toInt + ep < _
                omega
            · exact Or.inr hbound
          · exact ih h

/-! ## §2 — the bytes a process reads. -/

theorem toNat_extend_int {n : Nat} (h : n < 2 ^ 31) : ((BitVec.ofNat 32 n).signExtend 64).toNat = n := by
  rw [BitVec.signExtend_eq_setWidth_of_msb_false, BitVec.toNat_setWidth, BitVec.toNat_ofNat]
  · omega
  · rw [BitVec.msb_eq_false_iff_two_mul_lt, BitVec.toNat_ofNat]
    omega

/-- Signed division of numbers that are not negative. -/
theorem sdiv_toNat {x y : BitVec 64} (hx : x.toNat < 2 ^ 63) (hy : y.toNat < 2 ^ 63) :
    (x.sdiv y).toNat = x.toNat / y.toNat := by
  have hmx : x.msb = false := by rw [BitVec.msb_eq_false_iff_two_mul_lt]; omega
  have hmy : y.msb = false := by rw [BitVec.msb_eq_false_iff_two_mul_lt]; omega
  rw [BitVec.sdiv_eq, hmx, hmy]
  exact BitVec.toNat_udiv

theorem startOf_eq {r np n : Nat} (hr : r < 2 ^ 31) (hnp : np < 2 ^ 31) (hn : n < 2 ^ 31) :
    startOf (BitVec.ofNat 32 r) (BitVec.ofNat 32 np) (BitVec.ofNat 64 n) =
      BitVec.ofNat 64 (sizeofOffset * cut n np r) := by
  have hmul : r * n < 2 ^ 62 := by
    calc r * n ≤ (2 ^ 31 - 1) * (2 ^ 31 - 1) := Nat.mul_le_mul (by omega) (by omega)
      _ < 2 ^ 62 := by decide
  have hprod : ((BitVec.ofNat 32 r).signExtend 64 * BitVec.ofNat 64 n).toNat = r * n := by
    have hword : (BitVec.ofNat 64 n).toNat = n := by
      rw [BitVec.toNat_ofNat]
      omega
    rw [BitVec.toNat_mul, toNat_extend_int hr, hword, Nat.mod_eq_of_lt (by omega)]
  have hquot : (((BitVec.ofNat 32 r).signExtend 64 * BitVec.ofNat 64 n).sdiv
      ((BitVec.ofNat 32 np).signExtend 64)).toNat = cut n np r := by
    rw [sdiv_toNat (by omega) (by rw [toNat_extend_int hnp]; omega), hprod, toNat_extend_int hnp, cut]
  apply BitVec.eq_of_toNat_eq
  rw [startOf, BitVec.toNat_mul, hquot, BitVec.toNat_ofNat, BitVec.toNat_ofNat, Nat.mul_comm,
    Nat.mod_eq_of_lt (show sizeofOffset < 2 ^ 64 by decide)]

theorem setWidth_ofNat (a : Nat) : (BitVec.ofNat 64 a).setWidth 32 = BitVec.ofNat 32 a := by
  apply BitVec.eq_of_toNat_eq
  rw [BitVec.toNat_setWidth, BitVec.toNat_ofNat, BitVec.toNat_ofNat]
  omega

theorem highWord_ofNat {a : Nat} (h : a < 2 ^ 31) : highWord (BitVec.ofNat 64 a) = 0 := by
  apply BitVec.eq_of_toNat_eq
  rw [highWord, BitVec.toNat_setWidth, BitVec.toNat_ushiftRight, BitVec.toNat_ofNat,
    Nat.shiftRight_eq_div_pow]
  show _ = 0
  omega

namespace MetaDset

variable (D : MetaDset (listParser z) share (dsets.map some)) {r np : Nat}

/-- The first section process `r` of `np` reads. -/
def firstSec (np r : Nat) : Nat := cut D.nsec np r

/-- The section behind the last one it reads. -/
def endSec (np r : Nat) : Nat := if np ≤ D.nsec then cut D.nsec np (r + 1) else cut D.nsec np r + 1

/-- The stride of the processes that read section `k`. -/
def strideAt (np k : Nat) : I32 :=
  if np ≤ D.nsec then 1
  else strideOf (BitVec.ofNat 32 np) (BitVec.ofNat 64 D.nsec) (BitVec.ofNat 64 (sizeofOffset * k))

theorem firstSec_le_endSec (np r : Nat) : D.firstSec np r ≤ D.endSec np r := by
  unfold firstSec endSec
  split
  · exact Lib.cut_le_succ _ _ _
  · exact Nat.le_succ _

theorem firstSec_lt (hr : r < np) (hn : 0 < D.nsec) : D.firstSec np r < D.nsec := Lib.cut_lt hr hn

theorem endSec_le (hr : r < np) (hn : 0 < D.nsec) : D.endSec np r ≤ D.nsec := by
  unfold endSec
  split
  · calc cut D.nsec np (r + 1) ≤ cut D.nsec np np :=
          Nat.div_le_div_right (Nat.mul_le_mul_right _ hr)
      _ = D.nsec := Lib.cut_self (by omega)
  · exact Lib.cut_lt hr hn

theorem endSec_pos (hr : r < np) : 0 < D.endSec np r := by
  unfold endSec
  split
  · exact Lib.cut_pos ‹_› (by omega) (Nat.succ_pos r)
  · exact Nat.succ_pos _

/-- **The bounds a process computes**: where its first section starts and its last one ends, cut to an
`int`; what it means to tell the processes of one section apart is overwritten. -/
theorem divideJobs_eq (hr : r < np) (hnp : np < 2 ^ 31) (hn : 0 < D.nsec) :
    divideJobs (BitVec.ofNat 32 r) (BitVec.ofNat 32 np) (BitVec.ofNat 64 D.nsec) D.content =
      .ok { start := BitVec.ofNat 32 (D.secStart (D.firstSec np r))
            end_ := BitVec.ofNat 32 (D.secStart (D.endSec np r))
            off := highWord (BitVec.ofNat 64 (D.secStart (D.endSec np r)))
            stride := D.strideAt np (D.firstSec np r) } := by
  have hnlt : D.nsec < 2 ^ 31 := D.nsec_lt
  have hkn := D.firstSec_lt hr hn
  have hln := D.endSec_le hr hn
  obtain ⟨l, hl⟩ : ∃ l, D.endSec np r = l + 1 := Nat.exists_eq_add_one.mpr (D.endSec_pos hr)
  have hend := D.readMapWord_succ (k := l) (by omega)
  rw [← hl] at hend
  have hnext : (BitVec.ofNat 32 r + 1 : I32) = BitVec.ofNat 32 (r + 1) := (BitVec.ofNat_add r 1).symm
  have hsle : ((BitVec.ofNat 32 np).signExtend 64).sle (BitVec.ofNat 64 D.nsec) = decide (np ≤ D.nsec) := by
    rw [BitVec.sle_eq_decide, BitVec.toInt_eq_toNat_of_lt (by rw [toNat_extend_int hnp]; omega),
      toNat_extend_int hnp, BitVec.toInt_eq_toNat_of_lt, BitVec.toNat_ofNat,
      Nat.mod_eq_of_lt (by omega)]
    · simp
    · rw [BitVec.toNat_ofNat, Nat.mod_eq_of_lt (by omega)]
      omega
  -- the word before the first section, and what `sec.start` becomes
  have hfirst : ∃ v, readMapWord D.content (BitVec.ofNat 64 (sizeofOffset * D.firstSec np r)) = .ok v ∧
      (((MetaSec.mk 0 0 0 0).readStart v).behindMap (BitVec.ofNat 64 (sizeofOffset * D.firstSec np r))
        (BitVec.ofNat 64 D.nsec)).start = BitVec.ofNat 32 (D.secStart (D.firstSec np r)) := by
    rcases hk : D.firstSec np r with _ | k
    · refine ⟨_, D.readMapWord_zero, ?_⟩
      have hzero : (BitVec.ofNat 64 (sizeofOffset * 0)) = (0 : HSize) := rfl
      rw [MetaSec.behindMap, if_pos hzero]
      show (BitVec.ofNat 64 sizeofOffset * (BitVec.ofNat 64 D.nsec + BitVec.ofNat 64 1)).setWidth 32 = _
      rw [secStart_zero, ← BitVec.ofNat_add, ← BitVec.ofNat_mul, setWidth_ofNat]
    · refine ⟨_, D.readMapWord_succ (by omega), ?_⟩
      rw [MetaSec.behindMap, if_neg]
      · exact setWidth_ofNat _
      · intro hzero
        have hzero : (BitVec.ofNat 64 (sizeofOffset * (k + 1))).toNat = 0 := by
          rw [hzero]
          rfl
        rw [BitVec.toNat_ofNat, sizeofOffset] at hzero
        omega
  obtain ⟨v, hv, hstart⟩ := hfirst
  have hround : BitVec.ofNat 64 (sizeofOffset * D.firstSec np r) + BitVec.ofNat 64 sizeofOffset =
      BitVec.ofNat 64 (sizeofOffset * (D.firstSec np r + 1)) := by
    rw [← BitVec.ofNat_add, Nat.mul_succ]
  unfold divideJobs
  rw [startOf_eq (by omega) hnp hnlt, ← firstSec]
  simp only [hv, hnext, hsle, startOf_eq (show r + 1 < 2 ^ 31 by omega) hnp hnlt, hround, Lib.ok_bind,
    decide_eq_true_eq]
  by_cases hnsec : np ≤ D.nsec
  · have hword : cut D.nsec np (r + 1) = D.endSec np r := by rw [endSec, if_pos hnsec]
    rw [if_pos hnsec, hword, hend, Lib.ok_bind]
    simp only [MetaSec.readEnd, hstart, strideAt, if_pos hnsec, setWidth_ofNat]
    rfl
  · have hword : D.firstSec np r + 1 = D.endSec np r := by rw [endSec, if_neg hnsec, firstSec]
    rw [if_neg hnsec, hword, hend, Lib.ok_bind]
    simp only [MetaSec.readEnd, hstart, strideAt, if_neg hnsec, setWidth_ofNat]
    rfl

/-- The section record of process `r`. -/
def secOf (np r : Nat) : MetaSec where
  start := BitVec.ofNat 32 (D.secStart (D.firstSec np r))
  end_ := BitVec.ofNat 32 (D.secStart (D.endSec np r))
  off := highWord (BitVec.ofNat 64 (D.secStart (D.endSec np r)))
  stride := D.strideAt np (D.firstSec np r)

/-- The number of bytes it reads. -/
def countOf (np r : Nat) : HSize :=
  BitVec.ofInt 64 ((D.secOf np r).end_.toInt - (D.secOf np r).start.toInt)

/-- The entries of the sections it reads. -/
def runOf (np r : Nat) : PlacedEntries :=
  (((List.range D.nsec).take (D.endSec np r)).drop (D.firstSec np r)).flatMap D.placed

variable {config : I32}

/-- What is left of `parse_meta` once the jobs are divided. -/
theorem parseMetaDset_eq (hr : r < np) (hnp : np < 2 ^ 31) (hn : 0 < D.nsec) :
    parseMetaDset z config dsets (BitVec.ofNat 32 r) (BitVec.ofNat 32 np) D.content =
      readSlab D.content ((D.secOf np r).start.signExtend 64) (D.countOf np r) >>= fun buf =>
        if hasFlag config FileConfig.metadataShare
        then sharedLoop z dsets (D.secOf np r) buf (buf.length + 1) 0 0 [] []
        else plainLoop z dsets (D.secOf np r) buf ((buf.length + 1) * 2 ^ 32) 0 0 [] := by
  have hnlt : D.nsec < 2 ^ 31 := D.nsec_lt
  have hpos : ¬ (BitVec.ofNat 64 D.nsec).toInt ≤ 0 := by
    rw [BitVec.toInt_eq_toNat_of_lt, BitVec.toNat_ofNat, Nat.mod_eq_of_lt (by omega)]
    · omega
    · rw [BitVec.toNat_ofNat, Nat.mod_eq_of_lt (by omega)]
      omega
  unfold parseMetaDset
  rw [D.readMapWord_zero, Lib.ok_bind, if_neg hpos, D.divideJobs_eq hr hnp hn, Lib.ok_bind]
  rfl

/-- A process whose sections are empty inserts nothing, wherever they lie. -/
theorem parseMetaDset_empty (hr : r < np) (hnp : np < 2 ^ 31) (hn : 0 < D.nsec)
    (hempty : D.secStart (D.firstSec np r) = D.secStart (D.endSec np r)) :
    parseMetaDset z config dsets (BitVec.ofNat 32 r) (BitVec.ofNat 32 np) D.content = .ok [] := by
  have hcount : D.countOf np r = 0 := by
    rw [countOf, secOf, hempty, sub_self]
    rfl
  rw [D.parseMetaDset_eq hr hnp hn, readSlab, if_pos hcount, Lib.ok_bind]
  split
  · rfl
  · rfl

/-- The bytes of the sections, when no bound is cut. -/
theorem readSlab_run (hr : r < np) (hn : 0 < D.nsec) (hsmall : D.secStart (D.endSec np r) < 2 ^ 31) :
    readSlab D.content ((D.secOf np r).start.signExtend 64) (D.countOf np r) =
      .ok (((D.secs.take (D.endSec np r)).drop (D.firstSec np r)).flatten.flatMap WReq.metaBuf) := by
  have hle := D.secStart_mono (D.firstSec_le_endSec np r)
  have hend := D.secStart_mono (D.endSec_le hr hn)
  rw [← content_length] at hend
  have hstart : (D.secOf np r).start.signExtend 64 = BitVec.ofNat 64 (D.secStart (D.firstSec np r)) := by
    apply BitVec.eq_of_toNat_eq
    rw [secOf, toNat_extend_int (by omega), BitVec.toNat_ofNat]
    omega
  have hcount : D.countOf np r =
      BitVec.ofNat 64 (D.secStart (D.endSec np r) - D.secStart (D.firstSec np r)) := by
    rw [countOf, secOf, toInt_ofNat_of_lt hsmall, toInt_ofNat_of_lt (by omega), ← Nat.cast_sub hle,
      BitVec.ofInt_natCast]
  rw [hstart, hcount, readSlab_ofNat (by exact D.size_lt) (by omega),
    D.slice_sections (D.firstSec_le_endSec np r)]

/-- **What a process inserts**, when no bound is cut and its stride is not zero. -/
theorem parseMetaDset_run (hconfig : hasFlag config FileConfig.metadataShare = share) (hr : r < np)
    (hnp : np < 2 ^ 31) (hn : 0 < D.nsec) (hsmall : D.secStart (D.endSec np r) < 2 ^ 31)
    (hstride : D.strideAt np (D.firstSec np r) ≠ 0) :
    parseMetaDset z config dsets (BitVec.ofNat 32 r) (BitVec.ofNat 32 np) D.content =
      .ok (taken share (D.strideAt np (D.firstSec np r)) (D.runOf np r)) := by
  have hle := D.secStart_mono (D.firstSec_le_endSec np r)
  have hparses := D.run_holds (D.firstSec np r) (D.endSec np r)
  have hrun := D.placeEntries_run (D.firstSec_le_endSec np r) (D.endSec_le hr hn)
  have hlen := length_le_metaBytes ((D.secs.take (D.endSec np r)).drop (D.firstSec np r)).flatten
  have hplace : (D.secOf np r).start.toInt + 0 = D.secStart (D.firstSec np r) := by
    rw [add_zero, secOf, toInt_ofNat_of_lt (by omega)]
  have hoff : (D.secOf np r).off = 0 := highWord_ofNat hsmall
  rw [D.parseMetaDset_eq hr hnp hn, D.readSlab_run hr hn hsmall, Lib.ok_bind, hconfig, taken, runOf, ← hrun]
  -- Without sharing the loop needs fuel for every turn of the counter, with sharing for every entry.
  rcases share with _ | _
  · have hturn : ((2 : Nat) ^ 32) = 2 ^ 32 := rfl
    generalize hN : (2 : Nat) ^ 32 = turn at hturn ⊢
    have hfuel : ((D.secs.take (D.endSec np r)).drop (D.firstSec np r)).flatten.length * turn <
        ((((D.secs.take (D.endSec np r)).drop (D.firstSec np r)).flatten.flatMap
          WReq.metaBuf).length + 1) * turn := by
      have := Nat.mul_le_mul_right turn hlen
      rw [Nat.succ_mul]
      omega
    have hloop := @plainLoop_parses z dsets (D.secOf np r) 0 [] _ _ hparses hstride [] rfl _ turn hN.symm
      hfuel 0 []
    rw [if_neg (by decide), if_neg (by decide)]
    rw [List.nil_append, hplace] at hloop
    exact hloop
  · have hloop := @sharedLoop_parses z dsets (D.secOf np r) 0 [] _ _ hparses hstride [] rfl _
      (Nat.lt_succ_of_le hlen) 0 []
    rw [if_pos rfl, if_pos rfl]
    rw [List.nil_append, hplace, hoff] at hloop
    exact hloop

/-- A process that reads an entry with a stride of zero does not return. -/
theorem parseMetaDset_trap (hconfig : hasFlag config FileConfig.metadataShare = share) (hr : r < np)
    (hnp : np < 2 ^ 31) (hn : 0 < D.nsec) (hsmall : D.secStart (D.endSec np r) < 2 ^ 31)
    (hstride : D.strideAt np (D.firstSec np r) = 0) (hsome : D.runOf np r ≠ []) :
    parseMetaDset z config dsets (BitVec.ofNat 32 r) (BitVec.ofNat 32 np) D.content = .error .trap := by
  have hparses := D.run_holds (D.firstSec np r) (D.endSec np r)
  have hrun := D.placeEntries_run (D.firstSec_le_endSec np r) (D.endSec_le hr hn)
  rw [runOf, ← hrun] at hsome
  rw [D.parseMetaDset_eq hr hnp hn, D.readSlab_run hr hn hsmall, Lib.ok_bind, hconfig]
  rcases hrs : ((D.secs.take (D.endSec np r)).drop (D.firstSec np r)).flatten with _ | ⟨q, rs⟩
  · rw [hrs] at hsome
    exact absurd rfl hsome
  · rw [hrs] at hparses
    rcases share with _ | _
    · rw [if_neg (by decide), List.flatMap_cons]
      obtain ⟨fuel, hfuel⟩ : ∃ n, ((q.metaBuf ++ rs.flatMap WReq.metaBuf).length + 1) * 2 ^ 32 = n + 1 :=
        Nat.exists_eq_add_one.mpr (Nat.mul_pos (Nat.succ_pos _) (by decide))
      rw [hfuel]
      exact plainLoop_trap (hparses.wellSized q (List.mem_cons_self ..)) hstride _ _ _ _
    · rw [if_pos rfl]
      exact sharedLoop_trap hparses hstride [] rfl _ _ _

end MetaDset

end LogVol
