/-
# LogVol.MetaDset — the sections of a metadata dataset.

A metadata dataset begins with the decomposition map: the number of sections, and where each of them ends.
`SectionDset` is a dataset as a metadata flush writes it, the sections of its processes one after another, and
`MetaDset` is one together with the entries each section holds. A reader finds the sections through the map
(`readMapWord_zero`, `readMapWord_succ`, `slice_sections`).
-/
import LogVol.MetaFlush
import LogVol.Sections

namespace LogVol

open Lib (getWord putWord putWords)

/-! ## §1 — reading a metadata dataset. -/

/-- `H5Dread` of one block of `count` bytes at `start`; an empty block selects nothing. -/
def readSlab (ds : List UInt8) (start count : HSize) : Except Fault (List UInt8) :=
  if count = 0 then .ok []
  else if start.toNat + count.toNat ≤ ds.length then .ok ((ds.drop start.toNat).take count.toNat)
  else .error (.raised "H5Dread")

/-- A word of the decomposition map. -/
def readMapWord (ds : List UInt8) (start : HSize) : Except Fault MpiOffset :=
  (readSlab ds start (BitVec.ofNat 64 sizeofOffset)).map (getWord 64)

theorem readSlab_ofNat {ds : List UInt8} {start count : Nat} (hlen : ds.length < 2 ^ 63)
    (h : start + count ≤ ds.length) :
    readSlab ds (BitVec.ofNat 64 start) (BitVec.ofNat 64 count) = .ok ((ds.drop start).take count) := by
  have hstart : (BitVec.ofNat 64 start).toNat = start := by
    rw [BitVec.toNat_ofNat]
    omega
  have hcount : (BitVec.ofNat 64 count).toNat = count := by
    rw [BitVec.toNat_ofNat]
    omega
  rw [readSlab]
  by_cases hzero : BitVec.ofNat 64 count = 0
  · have hnil : count = 0 := by rw [← hcount, hzero]; rfl
    rw [if_pos hzero, hnil, List.take_zero]
  · rw [if_neg hzero, hstart, hcount, if_pos h]

/-- A word of a sequence of words. -/
theorem putWords_slice {ws : List MpiOffset} {k : Nat} (hk : k < ws.length) (rest : List UInt8) :
    ((putWords sizeofOffset ws ++ rest).drop (sizeofOffset * k)).take sizeofOffset =
      putWord sizeofOffset ws[k] := by
  induction ws generalizing k with
  | nil => exact absurd hk (Nat.not_lt_zero k)
  | cons w ws ih =>
      rw [Lib.putWords_cons, List.append_assoc]
      have hlen : (putWord sizeofOffset w).length = sizeofOffset := Lib.putWord_length _ w
      cases k with
      | zero =>
          rw [Nat.mul_zero, List.drop_zero, List.take_left' hlen]
          rfl
      | succ k =>
          rw [Nat.mul_succ, Nat.add_comm, ← List.drop_drop, List.drop_left' hlen]
          exact ih (by simpa using hk)

/-! ## §2 — the dataset. -/

/-- What a process writes whose requests are `rs`. -/
def sectionMeta (rs : List WReq) : LocalMeta :=
  ⟨rs.flatMap WReq.metaBuf, BitVec.ofNat 64 (rs.flatMap WReq.metaBuf).length⟩

/-- The sizes in the headers add up to the bytes. -/
theorem sum_metaSize {rs : List WReq} (h : ∀ r ∈ rs, r.WellSized) :
    (rs.map fun r => r.hdr.metaSize.signExtend 64).sum =
      BitVec.ofNat 64 (rs.flatMap WReq.metaBuf).length := by
  induction rs with
  | nil => rfl
  | cons r rs ih =>
      have hr : (r.metaBuf.length : Int) = r.hdr.metaSize.toInt := h r (List.mem_cons_self ..)
      have hword : r.hdr.metaSize.signExtend 64 = BitVec.ofNat 64 r.metaBuf.length := by
        apply BitVec.eq_of_toInt_eq
        rw [BitVec.toInt_signExtend_of_le (by decide), ← hr, BitVec.toInt_ofNat']
        have hlt : r.hdr.metaSize.toInt < 2 ^ 31 := BitVec.toInt_lt
        exact (Int.bmod_eq_of_le_mul_two (by omega) (by omega)).symm
      rw [List.map_cons, List.sum_cons, List.flatMap_cons, List.length_append, BitVec.ofNat_add, hword,
        ih fun x hx => h x (List.mem_cons_of_mem r hx)]

/-- A process whose entries are as long as their headers say writes them one after another. -/
theorem localMeta_eq {config : I32} {f : RankFile} (h : ∀ r ∈ f.wreqs, r.WellSized) :
    localMeta config f = .ok (sectionMeta f.wreqs) := by
  have hbytes : f.wreqs.mapM (WReq.metaTypeBytes (hasFlag config FileConfig.passthru)) =
      .ok (f.wreqs.map WReq.metaBuf) := by
    rw [Lib.mapM_eq_ok_iff, List.forall₂_map_right_iff, List.forall₂_same]
    exact fun r hr => metaTypeBytes_eq (h r hr)
  unfold localMeta
  rw [hbytes, sum_metaSize h]
  show Except.ok _ = _
  rw [sectionMeta, List.flatMap_def]

/-- What a process writes whose metadata buffers are `buf`, one behind the other. -/
def bufMeta (buf : List UInt8) : LocalMeta := ⟨buf, BitVec.ofNat 64 buf.length⟩

theorem sum_bufMeta (bufs : List (List UInt8)) :
    ((bufs.map bufMeta).map LocalMeta.mdsize).sum = BitVec.ofNat 64 bufs.flatten.length := by
  induction bufs with
  | nil => rfl
  | cons buf bufs ih =>
      rw [List.map_cons, List.map_cons, List.sum_cons, ih, List.flatten_cons, List.length_append, BitVec.ofNat_add]
      rfl

theorem decompMap_length (sizes : List MpiOffset) : (decompMap sizes).length = sizes.length + 1 := by
  simp [decompMap]

/-- The map, then the bytes of all sections. -/
theorem metadataDataset_bufMeta (bufs : List (List UInt8)) : metadataDataset (bufs.map bufMeta) =
    putWords sizeofOffset (decompMap ((bufs.map bufMeta).map LocalMeta.mdsize)) ++ bufs.flatten := by
  have hflat : (bufs.map bufMeta).flatMap LocalMeta.bytes = bufs.flatten := by
    rw [List.flatMap_map, ← List.flatMap_id]
    rfl
  rw [metadataDataset, hflat]

theorem mapBytes_length (bufs : List (List UInt8)) :
    (putWords sizeofOffset (decompMap ((bufs.map bufMeta).map LocalMeta.mdsize))).length =
      sizeofOffset * (bufs.length + 1) := by
  rw [Lib.putWords_length, decompMap_length, List.length_map, List.length_map]

/-- **The sections of a metadata dataset**, whatever they hold. -/
structure SectionDset where
  bufs : List (List UInt8)
  nsec_lt : bufs.length < 2 ^ 31
  size_lt : (metadataDataset (bufs.map bufMeta)).length < 2 ^ 63

namespace SectionDset

variable (S : SectionDset)

/-- Its bytes. -/
def content : List UInt8 := metadataDataset (S.bufs.map bufMeta)

def nsec : Nat := S.bufs.length

/-- Where section `k` starts, and the section before it ends. -/
def secStart (k : Nat) : Nat := sizeofOffset * (S.nsec + 1) + (S.bufs.take k).flatten.length

theorem secStart_zero : S.secStart 0 = sizeofOffset * (S.nsec + 1) := by
  simp [secStart]

theorem take_drop {i j : Nat} (hij : i ≤ j) : S.bufs.take i ++ (S.bufs.take j).drop i = S.bufs.take j := by
  have hsplit := List.take_append_drop i (S.bufs.take j)
  rwa [List.take_take, Nat.min_eq_left hij] at hsplit

/-- The size of a run of sections. -/
theorem secStart_add {i j : Nat} (hij : i ≤ j) :
    S.secStart i + ((S.bufs.take j).drop i).flatten.length = S.secStart j := by
  rw [secStart, secStart, Nat.add_assoc, ← List.length_append, ← List.flatten_append, S.take_drop hij]

theorem secStart_mono {i j : Nat} (h : i ≤ j) : S.secStart i ≤ S.secStart j := by
  rw [← S.secStart_add h]
  exact Nat.le_add_right _ _

theorem content_eq : S.content =
    putWords sizeofOffset (decompMap ((S.bufs.map bufMeta).map LocalMeta.mdsize)) ++ S.bufs.flatten :=
  metadataDataset_bufMeta S.bufs

theorem map_length : (putWords sizeofOffset (decompMap ((S.bufs.map bufMeta).map LocalMeta.mdsize))).length =
    sizeofOffset * (S.nsec + 1) := mapBytes_length S.bufs

theorem content_length : S.content.length = S.secStart S.nsec := by
  rw [content_eq, List.length_append, map_length, secStart, nsec, List.take_length]

theorem secStart_lt {k : Nat} (hk : k ≤ S.nsec) : S.secStart k < 2 ^ 63 := by
  have hle := S.secStart_mono hk
  have hlt : S.content.length < 2 ^ 63 := S.size_lt
  rw [content_length] at hlt
  omega

theorem readMapWord_of {k : Nat} (hk : k ≤ S.nsec) {w : MpiOffset}
    (hw : (decompMap ((S.bufs.map bufMeta).map LocalMeta.mdsize))[k]? = some w) :
    readMapWord S.content (BitVec.ofNat 64 (sizeofOffset * k)) = .ok w := by
  obtain ⟨hlt, hget⟩ := List.getElem?_eq_some_iff.mp hw
  have hlen : sizeofOffset * k + sizeofOffset ≤ S.content.length := by
    rw [content_eq, List.length_append, map_length, ← Nat.mul_succ]
    exact Nat.le_add_right_of_le (Nat.mul_le_mul_left _ (Nat.succ_le_succ hk))
  have hslab : readSlab S.content (BitVec.ofNat 64 (sizeofOffset * k)) (BitVec.ofNat 64 sizeofOffset) =
      .ok (putWord sizeofOffset w) := by
    rw [readSlab_ofNat (by exact S.size_lt) hlen, content_eq, putWords_slice hlt, hget]
  rw [readMapWord, hslab]
  exact congrArg Except.ok (Lib.getWord_putWord (by decide) w)

/-- The first word of the map: the number of sections. -/
theorem readMapWord_zero : readMapWord S.content 0 = .ok (BitVec.ofNat 64 S.nsec) :=
  S.readMapWord_of (Nat.zero_le _) (by simp [decompMap, nsec])

theorem decompMap_succ {k : Nat} (hk : k < S.nsec) :
    (decompMap ((S.bufs.map bufMeta).map LocalMeta.mdsize))[k + 1]? = some (BitVec.ofNat 64 (S.secStart (k + 1))) := by
  have hlen : k + 1 < ((S.bufs.map bufMeta).map LocalMeta.mdsize).inits.length := by
    rw [List.length_inits, List.length_map, List.length_map]
    exact Nat.succ_lt_succ hk
  rw [decompMap, List.getElem?_cons_succ, List.getElem?_map, List.getElem?_tail,
    List.getElem?_eq_getElem hlen, List.getElem_inits, Option.map_some, ← List.map_take, ← List.map_take,
    sum_bufMeta, List.length_map, List.length_map, mapSize, ← BitVec.ofNat_add]
  rfl

/-- The other words: where each section ends. -/
theorem readMapWord_succ {k : Nat} (hk : k < S.nsec) :
    readMapWord S.content (BitVec.ofNat 64 (sizeofOffset * (k + 1))) =
      .ok (BitVec.ofNat 64 (S.secStart (k + 1))) :=
  S.readMapWord_of hk (S.decompMap_succ hk)

/-- The bytes of a run of sections. -/
theorem slice_sections {i j : Nat} (hij : i ≤ j) :
    (S.content.drop (S.secStart i)).take (S.secStart j - S.secStart i) = ((S.bufs.take j).drop i).flatten := by
  have hbufs : S.bufs.flatten =
      (S.bufs.take i).flatten ++ (((S.bufs.take j).drop i).flatten ++ (S.bufs.drop j).flatten) := by
    rw [← List.flatten_append, ← List.flatten_append, ← List.append_assoc, S.take_drop hij,
      List.take_append_drop]
  rw [← S.secStart_add hij, Nat.add_sub_cancel_left, content_eq, secStart, ← List.drop_drop,
    List.drop_left' S.map_length, hbufs, List.drop_left, List.take_left]

theorem getElem_sections {k : Nat} (hk : k < S.nsec) :
    ((S.bufs.take (k + 1)).drop k).flatten = S.bufs.getD k [] := by
  have hlt : k < (S.bufs.take (k + 1)).length := by
    rw [List.length_take]
    exact lt_min (Nat.lt_succ_self k) hk
  rw [List.drop_eq_getElem_cons hlt, List.drop_of_length_le (by simp), List.getElem_take,
    List.getD_eq_getElem _ _ hk, List.flatten_singleton]
  rfl

theorem secStart_succ {k : Nat} (hk : k < S.nsec) :
    S.secStart (k + 1) = S.secStart k + (S.bufs.getD k []).length := by
  rw [← S.secStart_add (Nat.le_add_right k 1), S.getElem_sections hk]

end SectionDset

/-- **A metadata dataset**: the requests of each process of the group that wrote it, and what becomes of
them when its sections are parsed one by one. -/
structure MetaDset {E V : Type} (P : EntryParser E V) (share : Bool) (dsets : List (Option DsetInfo)) where
  secs : List (List WReq)
  held : List (List (Option E))
  holds : List.Forall₂ (SectionHolds P share dsets) secs held
  nsec_lt : secs.length < 2 ^ 31
  size_lt : (metadataDataset (secs.map sectionMeta)).length < 2 ^ 63

namespace MetaDset

variable {E V : Type} {P : EntryParser E V} {share : Bool} {dsets : List (Option DsetInfo)}
  (D : MetaDset P share dsets)

/-- Its bytes. -/
def content : List UInt8 := metadataDataset (D.secs.map sectionMeta)

def nsec : Nat := D.secs.length

/-- Where section `k` starts, and the section before it ends. -/
def secStart (k : Nat) : Nat :=
  sizeofOffset * (D.nsec + 1) + ((D.secs.take k).flatten.flatMap WReq.metaBuf).length

/-- The metadata buffers of each process. -/
def sectionBufs (secs : List (List WReq)) : List (List UInt8) := secs.map fun rs => rs.flatMap WReq.metaBuf

theorem map_bufMeta (secs : List (List WReq)) : (sectionBufs secs).map bufMeta = secs.map sectionMeta := by
  rw [sectionBufs, List.map_map]
  rfl

theorem sections_nsec_lt : (sectionBufs D.secs).length < 2 ^ 31 := by
  rw [sectionBufs, List.length_map]
  exact D.nsec_lt

theorem sections_size_lt : (metadataDataset ((sectionBufs D.secs).map bufMeta)).length < 2 ^ 63 := by
  rw [map_bufMeta]
  exact D.size_lt

/-- Its sections, as bytes. -/
def sections : SectionDset := ⟨sectionBufs D.secs, D.sections_nsec_lt, D.sections_size_lt⟩

theorem content_sections : D.content = D.sections.content := by
  rw [content, SectionDset.content, sections, map_bufMeta]

@[simp] theorem nsec_sections : D.sections.nsec = D.nsec := List.length_map _

theorem flatten_bufs (secs : List (List WReq)) :
    (sectionBufs secs).flatten = secs.flatten.flatMap WReq.metaBuf := by
  have hflat : secs.flatten.flatMap WReq.metaBuf = secs.flatMap fun rs => rs.flatMap WReq.metaBuf := by
    rw [← @List.flatMap_id _ secs, List.flatMap_assoc]
    rfl
  rw [hflat, List.flatMap_def, sectionBufs]

theorem run_flatten (i j : Nat) :
    ((D.sections.bufs.take j).drop i).flatten = ((D.secs.take j).drop i).flatten.flatMap WReq.metaBuf := by
  rw [← flatten_bufs, sectionBufs, List.map_drop, List.map_take]
  rfl

theorem secStart_sections (k : Nat) : D.secStart k = D.sections.secStart k := by
  have hrun := D.run_flatten 0 k
  rw [List.drop_zero, List.drop_zero] at hrun
  rw [secStart, SectionDset.secStart, nsec_sections, hrun]

theorem secStart_zero : D.secStart 0 = sizeofOffset * (D.nsec + 1) := by
  rw [secStart_sections, SectionDset.secStart_zero, nsec_sections]

theorem secStart_mono {i j : Nat} (h : i ≤ j) : D.secStart i ≤ D.secStart j := by
  rw [secStart_sections, secStart_sections]
  exact D.sections.secStart_mono h

theorem content_length : D.content.length = D.secStart D.nsec := by
  rw [content_sections, SectionDset.content_length, nsec_sections, secStart_sections]

/-- The first word of the map: the number of sections. -/
theorem readMapWord_zero : readMapWord D.content 0 = .ok (BitVec.ofNat 64 D.nsec) := by
  rw [content_sections, SectionDset.readMapWord_zero, nsec_sections]

/-- The other words: where each section ends. -/
theorem readMapWord_succ {k : Nat} (hk : k < D.nsec) :
    readMapWord D.content (BitVec.ofNat 64 (sizeofOffset * (k + 1))) =
      .ok (BitVec.ofNat 64 (D.secStart (k + 1))) := by
  rw [content_sections, secStart_sections]
  exact D.sections.readMapWord_succ (by rwa [nsec_sections])

/-- The size of a run of sections. -/
theorem secStart_sub {i j : Nat} (hij : i ≤ j) : D.secStart j - D.secStart i =
    (((D.secs.take j).drop i).flatten.flatMap WReq.metaBuf).length := by
  rw [secStart_sections, secStart_sections, ← D.sections.secStart_add hij, Nat.add_sub_cancel_left, run_flatten]

/-- The bytes of a run of sections. -/
theorem slice_sections {i j : Nat} (hij : i ≤ j) :
    (D.content.drop (D.secStart i)).take (D.secStart j - D.secStart i) =
      ((D.secs.take j).drop i).flatten.flatMap WReq.metaBuf := by
  rw [content_sections, secStart_sections, secStart_sections, D.sections.slice_sections hij, run_flatten]

/-- A run of sections on its own. -/
theorem run_holds (i j : Nat) :
    SectionHolds P share dsets ((D.secs.take j).drop i).flatten ((D.held.take j).drop i).flatten :=
  Parses.flatten (List.forall₂_drop i (List.forall₂_take j D.holds)) 0 []

end MetaDset

/-! ## §3 — entries in their places. -/

section Placed

variable {E : Type}

/-- What becomes of the requests `rs`, the first of them at `pos`, each entry with its place. -/
def placeEntries : Int → List WReq → List (Option E) → List (Int × E)
  | pos, r :: rs, o :: os => (o.toList.map fun e => (pos, e)) ++ placeEntries (pos + r.metaBuf.length) rs os
  | _, _, _ => []

theorem placeEntries_append {rs rs' : List WReq} {os os' : List (Option E)} (hlen : os.length = rs.length)
    (pos : Int) :
    placeEntries pos (rs ++ rs') (os ++ os') =
      placeEntries pos rs os ++ placeEntries (pos + (rs.flatMap WReq.metaBuf).length) rs' os' := by
  induction rs generalizing pos os with
  | nil =>
      obtain rfl := List.length_eq_zero_iff.mp hlen
      simp [placeEntries]
  | cons r rs ih =>
      obtain ⟨o, os, rfl⟩ := List.exists_cons_of_length_eq_add_one hlen
      simp only [List.cons_append, placeEntries, ih (Nat.succ.inj hlen), List.flatMap_cons,
        List.length_append, Nat.cast_add, add_assoc, List.append_assoc]

theorem placeEntries_bounds {rs : List WReq} {os : List (Option E)} {pos : Int} {x : Int × E}
    (hx : x ∈ placeEntries pos rs os) :
    pos ≤ x.1 ∧ x.1 < pos + (rs.flatMap WReq.metaBuf).length := by
  induction rs generalizing pos os with
  | nil => exact absurd hx List.not_mem_nil
  | cons r rs ih =>
      rcases os with _ | ⟨o, os⟩
      · exact absurd hx List.not_mem_nil
      · have hpos := r.metaBuf_pos
        rw [List.flatMap_cons, List.length_append, Nat.cast_add]
        rcases List.mem_append.mp hx with hx | hx
        · obtain ⟨e, -, rfl⟩ := List.mem_map.mp hx
          show pos ≤ pos ∧ pos < _
          omega
        · have := ih hx
          omega

theorem placeEntries_pairwise (rs : List WReq) (os : List (Option E)) (pos : Int) :
    (placeEntries pos rs os).Pairwise fun x y => x.1 < y.1 := by
  induction rs generalizing pos os with
  | nil => exact List.Pairwise.nil
  | cons r rs ih =>
      rcases os with _ | ⟨_ | e, os⟩
      · exact List.Pairwise.nil
      · exact ih os _
      · refine List.Pairwise.cons (fun x hx => ?_) (ih os _)
        have hpos := r.metaBuf_pos
        have := (placeEntries_bounds hx).1
        show pos < x.1
        omega

/-- No two entries are in one place. -/
theorem placeEntries_nodup (rs : List WReq) (os : List (Option E)) (pos : Int) :
    (placeEntries pos rs os).Nodup := by
  refine (placeEntries_pairwise rs os pos).imp fun {x y} hlt heq => ?_
  rw [heq] at hlt
  exact lt_irrefl _ hlt

end Placed

namespace MetaDset

variable {E V : Type} {P : EntryParser E V} {share : Bool} {dsets : List (Option DsetInfo)}
  (D : MetaDset P share dsets)

/-- The entries of section `k`. -/
def placed (k : Nat) : List (Int × E) :=
  placeEntries (D.secStart k) (D.secs.getD k []) (D.held.getD k [])

/-- All entries of the dataset. -/
def allPlaced : List (Int × E) := (List.range D.nsec).flatMap D.placed

theorem held_length : D.held.length = D.nsec := D.holds.length_eq.symm

/-- Section `k` on its own. -/
theorem sectionHolds {k : Nat} (hk : k < D.nsec) :
    SectionHolds P share dsets (D.secs.getD k []) (D.held.getD k []) := by
  have hk' : k < D.held.length := by
    rw [held_length]
    exact hk
  rw [List.getD_eq_getElem _ _ hk, List.getD_eq_getElem _ _ hk']
  exact List.forall₂_iff_get.mp D.holds |>.2 k hk hk'

theorem secStart_succ {k : Nat} (hk : k < D.nsec) :
    D.secStart (k + 1) = D.secStart k + ((D.secs.getD k []).flatMap WReq.metaBuf).length := by
  rw [secStart, secStart, List.take_add_one, List.getElem?_eq_getElem hk, Option.toList_some,
    List.flatten_append, List.flatMap_append, List.length_append, List.getD_eq_getElem _ _ hk,
    List.flatten_singleton, Nat.add_assoc]

/-- A run of sections, section by section. -/
theorem placeEntries_run {i j : Nat} (hij : i ≤ j) (hj : j ≤ D.nsec) :
    placeEntries (D.secStart i) ((D.secs.take j).drop i).flatten ((D.held.take j).drop i).flatten =
      (((List.range D.nsec).take j).drop i).flatMap D.placed := by
  induction hij using Nat.decreasingInduction with
  | self =>
      rw [List.drop_of_length_le (by simp), List.drop_of_length_le (by simp),
        List.drop_of_length_le (by simp)]
      rfl
  | of_succ i hi ih =>
      have hlt : i < D.nsec := by omega
      have hs : i < D.secs.length := hlt
      have hh : i < D.held.length := by
        rw [held_length]
        exact hlt
      have hsecs : i < (D.secs.take j).length := by
        rw [List.length_take]
        exact lt_min hi hlt
      have hheld : i < (D.held.take j).length := by
        rw [List.length_take, held_length]
        exact lt_min hi hlt
      have hrange : i < ((List.range D.nsec).take j).length := by
        rw [List.length_take, List.length_range]
        exact lt_min hi hlt
      have hsec := D.sectionHolds hlt
      rw [List.drop_eq_getElem_cons hsecs, List.drop_eq_getElem_cons hheld,
        List.drop_eq_getElem_cons hrange, List.flatten_cons, List.flatten_cons, List.flatMap_cons, ← ih,
        List.getElem_take, List.getElem_take, List.getElem_take, List.getElem_range,
        ← List.getD_eq_getElem _ [] hs, ← List.getD_eq_getElem _ [] hh,
        placeEntries_append hsec.length_eq, D.secStart_succ hlt, Nat.cast_add]
      rfl

/-- All entries, one after another behind the map. -/
theorem allPlaced_eq :
    D.allPlaced = placeEntries (D.secStart 0) D.secs.flatten D.held.flatten := by
  have hrun := D.placeEntries_run (Nat.zero_le D.nsec) le_rfl
  rw [List.drop_zero, List.drop_zero, List.drop_zero, nsec, List.take_length, ← nsec, ← D.held_length,
    List.take_length, D.held_length] at hrun
  rw [allPlaced, hrun, List.take_of_length_le (by simp)]

theorem allPlaced_nodup : D.allPlaced.Nodup := by
  rw [allPlaced_eq]
  exact placeEntries_nodup _ _ _

end MetaDset

end LogVol
